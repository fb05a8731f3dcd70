import BlockFeed.MessagePack.Marker

/-! The ways in which bytes fail to be the MessagePack that a reader asked for. -/

namespace BlockFeed.MessagePack

/-- What a reader asked for. `int64` is asked for where an integer was found that does not fit, and
`other` leaves the words to a reader outside this library. -/
inductive Shape
  | array
  | map
  | string
  | integer
  | int64
  | binary
  | other (text : String)
  deriving DecidableEq, Repr

namespace Shape

/-- A shape in words. -/
def text : Shape → String
  | array => "array"
  | map => "map"
  | string => "string"
  | integer => "integer"
  | int64 => "integer within int64 range"
  | binary => "binary"
  | other text => text

end Shape

/-- Why a reader stopped: the bytes ran out, the marker that starts no value was found, or a marker
of another shape than the one asked for. -/
inductive Fault
  | truncated
  | reserved
  | unexpected (expected : Shape) (marker : UInt8)
  deriving DecidableEq, Repr

namespace Fault

/-- The fault of finding this marker where another shape is expected. The reserved marker is a
fault of its own whatever is expected. -/
def refusal (expected : Shape) (marker : Marker) : Fault :=
  if marker = .reserved then reserved else unexpected expected marker.byte

end Fault

end BlockFeed.MessagePack
