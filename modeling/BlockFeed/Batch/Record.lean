import BlockFeed.MessagePack.Count

/-! The records of a batch and the fixed parts of their layout. A record is a map from field names
to values, and its block is a byte string that the batch never looks into. -/

namespace BlockFeed

/-- A serialized block and the height at which it stands. -/
@[ext]
structure Record where
  height : Int64 := 0
  block : Bytes := []
  deriving DecidableEq, Repr

namespace Record

open MessagePack

/-- The field name `height` in ASCII. -/
def heightKey : Bytes := [0x68, 0x65, 0x69, 0x67, 0x68, 0x74]

/-- The field name `block` in ASCII. -/
def blockKey : Bytes := [0x62, 0x6c, 0x6f, 0x63, 0x6b]

/-- The field name `height` as a string value. -/
def heightToken : Bytes := (Marker.fixstr 6).byte :: heightKey

/-- The field name `block` as a string value. -/
def blockToken : Bytes := (Marker.fixstr 5).byte :: blockKey

/-- The number of fields that a record is written with. -/
def fieldCount : Nat := 2

/-- The header that a record is written with. -/
def mapMarker : Marker := .fixmap 2

/-- The number of bytes of a written height. -/
def heightSize : Nat := 9

/-- The number of bytes of a written record that stand for neither its block nor the header of its
block: the map marker, both field names, and the height. -/
def fixedSize : Nat := 1 + heightToken.length + heightSize + blockToken.length

/-- The fewest bytes that a record takes: an empty map. -/
def minSize : Nat := 1

/-- The fewest bytes that an entry of a record takes: a name and a value of one byte each. -/
def minEntrySize : Nat := 2

end Record

/-- A batch that can be written: no count or length in it exceeds what a header is able to give. -/
def Representable (records : List Record) : Prop :=
  records.length < MessagePack.Marker.countBound ∧
    ∀ record ∈ records, record.block.length < MessagePack.Marker.countBound

instance (records : List Record) : Decidable (Representable records) :=
  inferInstanceAs (Decidable (_ ∧ _))

end BlockFeed
