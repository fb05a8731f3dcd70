import BlockFeed.MessagePack.Count

/-! Complete values of any kind, read past without being kept. Containers are not descended into:
the values that they announce are added to the number of values still pending, so no nesting of the
input is deeper than a counter. -/

namespace BlockFeed.MessagePack

/-- What stands after a marker: a payload, of as many bytes as the field gives and `extra` more, or
for each of the counted entries `each` further values. -/
inductive Layout
  | payload (length : CountField) (extra : Nat)
  | values (count : CountField) (each : Nat)
  deriving DecidableEq, Repr

/-- What stands after each marker. The reserved marker starts no value. An extension payload has
one byte more than its length says, for its type. -/
def Marker.layout? : Marker → Option Layout
  | reserved => none
  | positiveFixint _ | negativeFixint _ | nil | bool _ => some (.payload (.inMarker 0) 0)
  | uint width | int width => some (.payload (.inMarker (widthAt width.val)) 0)
  | float width => some (.payload (.inMarker (widthAt (width.val + 2))) 0)
  | fixstr length => some (.payload (.inMarker length) 0)
  | str width | bin width => some (.payload (.after (widthAt width.val)) 0)
  | fixext width => some (.payload (.inMarker (widthAt width.val)) 1)
  | ext width => some (.payload (.after (widthAt width.val)) 1)
  | fixarray elements => some (.values (.inMarker elements) 1)
  | array width => some (.values (.after (widthAt (width.val + 1))) 1)
  | fixmap entries => some (.values (.inMarker entries) 2)
  | map width => some (.values (.after (widthAt (width.val + 1))) 2)

namespace Layout

/-- Reads what stands after a marker up to the values inside, and answers how many those are. -/
def read : Layout → Reader Fault Nat
  | payload length extra => do
      let length ← length.read
      let _ ← Reader.take .truncated (length + extra)
      return 0
  | values count each => do
      let count ← count.read
      return each * count

end Layout

/-- Reads a value up to the values inside it, and answers how many those are. -/
def valueHead : Reader Fault Nat := do
  let marker ← marker
  match marker.layout? with
  | some layout => layout.read
  | none => throw .reserved

theorem CountField.read_nonGrowing (field : CountField) : field.read.NonGrowing := by
  cases field with
  | inMarker count => exact Reader.nonGrowing_pure count
  | after width =>
      exact (Reader.nonGrowing_take _ _).bind fun _ => Reader.nonGrowing_pure _

theorem Layout.read_nonGrowing (layout : Layout) : layout.read.NonGrowing := by
  cases layout with
  | payload length extra =>
      exact length.read_nonGrowing.bind fun _ =>
        (Reader.nonGrowing_take _ _).bind fun _ => Reader.nonGrowing_pure _
  | values count each =>
      exact count.read_nonGrowing.bind fun _ => Reader.nonGrowing_pure _

theorem marker_advances : marker.Advances :=
  (Reader.advances_byte _).bind fun _ => Reader.nonGrowing_pure _

theorem valueHead_advances : valueHead.Advances := by
  refine marker_advances.bind fun marker => ?_
  cases marker.layout? with
  | some layout => exact layout.read_nonGrowing
  | none => exact Reader.nonGrowing_throw _

/-- Reads past as many complete values as are pending. Each of them takes at least one byte, so
more values than bytes are a truncation that need not be run into. -/
def skipValues (pending : Nat) (input : Input) : Except Fault (Unit × Input) :=
  match pending with
  | 0 => .ok ((), input)
  | others + 1 =>
      if input.size ≤ others then
        .error .truncated
      else
        match _hRead : valueHead input with
        | .error fault => .error fault
        | .ok (inner, rest) => skipValues (others + inner) rest
termination_by input.size
decreasing_by exact valueHead_advances _hRead

/-- Reads past one complete value. -/
def skip : Reader Fault Unit := skipValues 1

end BlockFeed.MessagePack
