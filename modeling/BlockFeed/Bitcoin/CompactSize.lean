import BlockFeed.Bitcoin.Error
import BlockFeed.Bytes.Endian

/-! The variable-length numbers of serialized blocks. Small numbers are a byte of their own, and
larger ones follow a first byte that tells their width. Of the forms of a number only the shortest
is accepted. -/

namespace BlockFeed.Bitcoin.CompactSize

/-- A form in which a number follows a first byte: its first byte, the number of bytes that follow,
and the least number written in it. -/
structure Form where
  first : UInt8
  width : Nat
  least : Nat
  deriving DecidableEq, Repr

/-- Two bytes, for numbers that are not a byte of their own. -/
def twoBytes : Form := ⟨0xfd, 2, 0xfd⟩

/-- Four bytes, for numbers of more than two. -/
def fourBytes : Form := ⟨0xfe, 4, UInt16.size⟩

/-- Eight bytes, for numbers of more than four. -/
def eightBytes : Form := ⟨0xff, 8, UInt32.size⟩

/-- The form that a first byte announces. A lesser byte is the number itself. -/
def form? (first : UInt8) : Option Form :=
  if first = twoBytes.first then some twoBytes
  else if first = fourBytes.first then some fourBytes
  else if first = eightBytes.first then some eightBytes
  else none

/-- The form in which a number is written, unless it is a byte of its own. -/
def formOf? (value : Nat) : Option Form :=
  if value < twoBytes.least then none
  else if value < fourBytes.least then some twoBytes
  else if value < eightBytes.least then some fourBytes
  else some eightBytes

/-- A number in its shortest form. -/
def encode (value : UInt64) : Bytes :=
  match formOf? value.toNat with
  | none => [value.toUInt8]
  | some form => form.first :: Bytes.littleEndian form.width value.toNat

/-- The number at the front of a byte string, and how many bytes it takes. -/
def decode : Bytes → Except BlockError (UInt64 × Nat)
  | [] => .error (.insufficientBytes .compactSize)
  | first :: rest =>
      match form? first with
      | none => .ok (first.toUInt64, 1)
      | some form =>
          let digits := rest.take form.width
          let value := Bytes.ofLittleEndian digits
          if digits.length < form.width then
            .error (.insufficientBytes .compactSize)
          else if value < form.least then
            .error .overlongNumber
          else
            .ok (UInt64.ofNat value, 1 + form.width)

end BlockFeed.Bitcoin.CompactSize
