import BlockFeed.MessagePack.Count

/-! Integers, whatever marker family gives them. An integer of any width is read to its value, and
only an unsigned one of eight bytes can lie outside the range of a signed 64-bit number. -/

namespace BlockFeed.MessagePack

/-- Where an integer is given: in its marker, or in the `width` bytes after it, which are a plain
number or a two's complement. -/
inductive IntegerField
  | inMarker (value : Int)
  | unsigned (width : Nat)
  | signed (width : Nat)
  deriving DecidableEq, Repr

namespace IntegerField

/-- The field is able to give this integer. -/
def Carries (field : IntegerField) (value : Int) : Prop :=
  match field with
  | inMarker own => value = own
  | unsigned width => 0 ≤ value ∧ value < Bytes.capacity width
  | signed width => -Bytes.capacity width ≤ 2 * value ∧ 2 * value < Bytes.capacity width

/-- The bytes after the marker that give this integer. -/
def spell (field : IntegerField) (value : Int) : Bytes :=
  match field with
  | inMarker _ => []
  | unsigned width | signed width => Bytes.bigEndian width (value % Bytes.capacity width).toNat

/-- Reads the integer, the marker having been read. -/
def read : IntegerField → Reader Fault Int
  | inMarker value => pure value
  | unsigned width => (fun bytes => (Bytes.ofBigEndian bytes : Int)) <$> Reader.take .truncated width
  | signed width => Bytes.signedOfBigEndian <$> Reader.take .truncated width

end IntegerField

/-- How an integer marker gives its value. The 32 markers of small negative integers end with the
one for -1. -/
def Marker.integerField? : Marker → Option IntegerField
  | positiveFixint value => some (.inMarker value)
  | negativeFixint value => some (.inMarker ((value : Int) - 32))
  | uint width => some (.unsigned (widthAt width.val))
  | int width => some (.signed (widthAt width.val))
  | _ => none

/-- An integer that fits into a signed 64-bit number. -/
def int64 : Reader Fault Int64 := do
  let marker ← marker
  match marker.integerField? with
  | none => throw (.refusal .integer marker)
  | some field =>
      let value ← field.read
      if value ≤ Int64.maxValue.toInt then
        return Int64.ofInt value
      else
        throw (.unexpected .int64 marker.byte)

/-- The bytes of a signed 64-bit number, written in full width whatever its value. -/
def int64Bytes (value : Int64) : Bytes :=
  (Marker.int 3).byte :: Bytes.bigEndian 8 value.toUInt64.toNat

@[simp] theorem int64Bytes_length (value : Int64) : (int64Bytes value).length = 9 := by
  simp [int64Bytes]

end BlockFeed.MessagePack
