import BlockFeed.Bytes.Hex
import BlockFeed.MessagePack.Fault

/-! Why a batch is not read. An error names the record, the field within it, and the cause, and
`DecodeError.message` puts the three into words. -/

namespace BlockFeed

/-- A part of a batch: its header, with all that is not inside a record, or within a record the
header, the name of a field, or the value of a known or of an unknown field. -/
inductive Field
  | batch
  | record
  | key
  | height
  | block
  | unknown
  deriving DecidableEq, Repr

namespace Field

/-- A part of a batch in words. -/
def text : Field → String
  | batch => "batch header"
  | record => "record header"
  | key => "field name"
  | height => "height"
  | block => "block"
  | unknown => "unknown field"

end Field

/-- Why a field is not read: the bytes are not the MessagePack that belongs there, a limit is
exceeded, or bytes are left after the last record. The last constructor leaves the words to a
caller that checks more than this library. -/
inductive Cause
  | fault (fault : MessagePack.Fault)
  | tooManyRecords (declared limit : Nat)
  | payloadTooLong (declared limit : Nat)
  | trailingBytes (count : Nat)
  | other (reason : String)
  deriving DecidableEq, Repr

/-- The three kinds of error, with the words that tell errors of one kind apart. -/
inductive ErrorKind
  | truncated
  | typeMismatch (expected : String) (marker : UInt8)
  | malformed (reason : String)
  deriving DecidableEq, Repr

namespace Cause

/-- The kind of a cause, and its words. -/
def kind : Cause → ErrorKind
  | fault .truncated => .truncated
  | fault .reserved => .malformed "reserved marker 0xc1"
  | fault (.unexpected expected marker) => .typeMismatch expected.text marker
  | tooManyRecords declared limit =>
      .malformed s!"batch declares {declared} records, limit is {limit}"
  | payloadTooLong declared limit =>
      .malformed s!"payload of {declared} bytes exceeds limit of {limit}"
  | trailingBytes count => .malformed s!"{count} trailing bytes after the last record"
  | other reason => .malformed reason

end Cause

/-- A field that is not read, and why. -/
structure FieldError where
  field : Field
  cause : Cause
  deriving DecidableEq, Repr

/-- A batch that is not read. The record is absent where the batch's header, or what stands after
its last record, is at fault. -/
@[ext]
structure DecodeError extends FieldError where
  record : Option Nat
  deriving DecidableEq, Repr

namespace DecodeError

/-- The kind of an error, and its words. -/
def kind (error : DecodeError) : ErrorKind := error.cause.kind

/-- Where an error is, in words. -/
def location (error : DecodeError) : String :=
  match error.record with
  | some index => s!"record {index}"
  | none => "batch"

/-- An error in words. -/
def message (error : DecodeError) : String :=
  let place := error.location
  let field := error.field.text
  match error.kind with
  | .truncated => s!"Truncated input at {place}: ran out of bytes reading {field}"
  | .typeMismatch expected marker =>
      let found := Bytes.hex [marker]
      s!"Type mismatch at {place}: {field} expected {expected}, found marker 0x{found}"
  | .malformed reason => s!"Malformed input at {place}: {field}: {reason}"

end DecodeError

end BlockFeed
