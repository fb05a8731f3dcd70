import BlockFeed.Bitcoin.CompactSize
import BlockFeed.Bitcoin.Header

/-! What a serialized block tells without a look at its transactions. -/

namespace BlockFeed.Bitcoin

/-- The header of a block, the number of its transactions, and its size in bytes. -/
structure Summary where
  header : Header
  txCount : UInt64
  size : Nat
  deriving DecidableEq

namespace Summary

/-- Summarizes a serialized block. A block has at least the transaction that pays its finder. -/
def ofBlock (block : Bytes) : Except BlockError Summary := do
  let header ← Header.ofBytes block
  let (txCount, _) ← CompactSize.decode (block.drop Header.size)
  if txCount = 0 then
    throw (.transactionCount txCount)
  else
    return { header, txCount, size := block.length }

/-- The name under which the block is displayed. -/
def blockId (summary : Summary) : String := summary.header.blockId

end Summary

end BlockFeed.Bitcoin
