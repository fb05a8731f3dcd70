import BlockFeed.Bytes.Reader
import BlockFeed.MessagePack.Fault

/-! Counts and lengths in headers. A header gives its count in the marker or in a big-endian number
after it, and `spell` writes what `read` reads. -/

namespace BlockFeed.MessagePack

/-- A marker read from the input. -/
def marker : Reader Fault Marker :=
  Marker.ofByte <$> Reader.byte .truncated

/-- A big-endian number of `width` bytes. -/
def unsigned (width : Nat) : Reader Fault Nat :=
  Bytes.ofBigEndian <$> Reader.take .truncated width

/-- Where a header gives its count: in its marker, or in the `width` bytes after it. -/
inductive CountField
  | inMarker (count : Nat)
  | after (width : Nat)
  deriving DecidableEq, Repr

namespace CountField

/-- The number of bytes that the field takes after the marker. -/
def size : CountField → Nat
  | inMarker _ => 0
  | after width => width

/-- The field is able to give this count. -/
def Carries (field : CountField) (count : Nat) : Prop :=
  match field with
  | inMarker own => count = own
  | after width => count < Bytes.capacity width

/-- The bytes after the marker that give this count. -/
def spell (field : CountField) (count : Nat) : Bytes :=
  match field with
  | inMarker _ => []
  | after width => Bytes.bigEndian width count

/-- Reads the count, the marker having been read. -/
def read : CountField → Reader Fault Nat
  | inMarker count => pure count
  | after width => unsigned width

@[simp] theorem spell_length (field : CountField) (count : Nat) :
    (field.spell count).length = field.size := by
  cases field <;> simp [spell, size]

end CountField

namespace Marker

/-- How an array marker gives the number of its elements. -/
def arrayCount? : Marker → Option CountField
  | fixarray elements => some (.inMarker elements)
  | array width => some (.after (widthAt (width.val + 1)))
  | _ => none

/-- How a map marker gives the number of its entries. -/
def mapCount? : Marker → Option CountField
  | fixmap entries => some (.inMarker entries)
  | map width => some (.after (widthAt (width.val + 1)))
  | _ => none

/-- How a binary marker gives the number of its bytes. -/
def binaryLength? : Marker → Option CountField
  | bin width => some (.after (widthAt width.val))
  | _ => none

/-- How a string marker gives the number of its bytes. -/
def stringLength? : Marker → Option CountField
  | fixstr length => some (.inMarker length)
  | str width => some (.after (widthAt width.val))
  | _ => none

/-- The largest count that the markers of small arrays and small maps hold. -/
def maxFixCount : Nat := 15

/-- The largest length that the markers of small strings hold. -/
def maxFixLength : Nat := 31

/-- The first count that no header is able to give. -/
def countBound : Nat := UInt32.size

/-- The array marker of the shortest header for this many elements. Counts that no header gives
are left with the widest. -/
def forArray (count : Nat) : Marker :=
  if h : count ≤ maxFixCount then fixarray ⟨count, Nat.lt_succ_of_le h⟩
  else if count < UInt16.size then array 0
  else array 1

/-- The binary marker of the shortest header for this many bytes. Lengths that no header gives are
left with the widest. -/
def forBinary (length : Nat) : Marker :=
  if length < UInt8.size then bin 0
  else if length < UInt16.size then bin 1
  else bin 2

/-- The array marker of the shortest header for this many elements, if a header is able to give
the count. -/
def forArray? (count : Nat) : Option Marker :=
  if count < countBound then some (forArray count) else none

/-- The binary marker of the shortest header for this many bytes, if a header is able to give the
length. -/
def forBinary? (length : Nat) : Option Marker :=
  if length < countBound then some (forBinary length) else none

/-- The count field of the shortest array header. -/
def arrayField (count : Nat) : CountField :=
  if count ≤ maxFixCount then .inMarker count
  else if count < UInt16.size then .after 2
  else .after 4

/-- The length field of the shortest binary header. -/
def binaryField (length : Nat) : CountField :=
  if length < UInt8.size then .after 1
  else if length < UInt16.size then .after 2
  else .after 4

theorem arrayCount?_forArray (count : Nat) :
    (forArray count).arrayCount? = some (arrayField count) := by
  unfold forArray arrayField
  split
  · rfl
  · split <;> rfl

theorem binaryLength?_forBinary (length : Nat) :
    (forBinary length).binaryLength? = some (binaryField length) := by
  unfold forBinary binaryField
  split
  · rfl
  · split <;> rfl

theorem arrayField_carries {count : Nat} (hBound : count < countBound) :
    (arrayField count).Carries count := by
  unfold arrayField
  split
  · rfl
  · split
    · assumption
    · exact hBound

theorem binaryField_carries {length : Nat} (hBound : length < countBound) :
    (binaryField length).Carries length := by
  unfold binaryField
  split
  · assumption
  · split
    · assumption
    · exact hBound

end Marker

/-- Reads a header of the expected shape, whose count is where `field?` says. -/
def header (expected : Shape) (field? : Marker → Option CountField) : Reader Fault Nat := do
  let marker ← marker
  match field? marker with
  | some field => field.read
  | none => throw (.refusal expected marker)

/-- The number of elements of an array. -/
def arrayHeader : Reader Fault Nat := header .array Marker.arrayCount?

/-- The number of entries of a map. -/
def mapHeader : Reader Fault Nat := header .map Marker.mapCount?

/-- The number of bytes of a binary payload. -/
def binaryHeader : Reader Fault Nat := header .binary Marker.binaryLength?

/-- The number of bytes of a text that may be given as a string or as a binary payload. -/
def textHeader : Reader Fault Nat :=
  header .string fun marker => marker.stringLength? <|> marker.binaryLength?

/-- The bytes of a text that may be given as a string or as a binary payload. -/
def text : Reader Fault Bytes := do
  let length ← textHeader
  Reader.take .truncated length

/-- The shortest header of an array of this many elements. -/
def arrayHeaderBytes (count : Nat) : Bytes :=
  (Marker.forArray count).byte :: (Marker.arrayField count).spell count

/-- The shortest header of a binary payload of this many bytes. -/
def binaryHeaderBytes (length : Nat) : Bytes :=
  (Marker.forBinary length).byte :: (Marker.binaryField length).spell length

end BlockFeed.MessagePack
