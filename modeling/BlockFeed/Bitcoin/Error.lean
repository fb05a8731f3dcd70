/-! Why a serialized block is not read. -/

namespace BlockFeed.Bitcoin

/-- A part of a serialized block that runs past the end of the bytes. The last constructor leaves
the words to a caller that reads more of a block than this library. -/
inductive BlockPart
  | header
  | compactSize
  | other (text : String)
  deriving DecidableEq, Repr

namespace BlockPart

/-- A part of a block in words. -/
def text : BlockPart → String
  | header => "block header"
  | compactSize => "VarInt"
  | other text => text

end BlockPart

/-- Bytes are missing, a number is written longer than it has to be, or the number of transactions
is one that no block has. -/
inductive BlockError
  | insufficientBytes (part : BlockPart)
  | overlongNumber
  | transactionCount (count : UInt64)
  deriving DecidableEq, Repr

namespace BlockError

/-- An error in words. -/
def message : BlockError → String
  | insufficientBytes part =>
      let part := part.text
      s!"Insufficient bytes to parse {part}"
  | overlongNumber => "Non-canonical VarInt encoding"
  | transactionCount count =>
      let count := count.toNat
      s!"Invalid transaction count: {count}"

end BlockError

end BlockFeed.Bitcoin
