import BlockFeed.Batch.Error
import BlockFeed.Batch.Limits
import BlockFeed.Batch.Record
import BlockFeed.MessagePack.Integer
import BlockFeed.MessagePack.Value

/-! Batches read from untrusted bytes. The reader takes every layout that a writer of MessagePack
may choose: headers of any width, heights in any integer family, names as strings or as binary
payloads, and entries under unknown names, whose values are read past. Where an entry is given twice
the last one counts, and a missing one has its default.

No count declared by the bytes is trusted. Records are read one after the other, so a count beyond
the input ends as a truncation. -/

namespace BlockFeed.Batch

open MessagePack

/-- The reader of a field: its faults are faults of that field. -/
def reading {α : Type} (field : Field) (reader : Reader Fault α) : Reader FieldError α :=
  reader.mapError fun fault => ⟨field, .fault fault⟩

/-- The number of entries of a record. Each entry takes at least two bytes, so a larger number than
the remaining bytes can hold is a truncation of the record's header. -/
def entryCount : Reader FieldError Nat := do
  let entries ← reading .record mapHeader
  let remaining ← Reader.remaining
  if remaining < Record.minEntrySize * entries then
    throw ⟨.record, .fault .truncated⟩
  else
    return entries

/-- A block, whose declared length is held against the limit before its bytes are taken. -/
def block (limits : Limits) : Reader FieldError Bytes := do
  let length ← reading .block binaryHeader
  if limits.maxBlockSize.toNat < length then
    throw ⟨.block, .payloadTooLong length limits.maxBlockSize.toNat⟩
  else
    reading .block (Reader.take .truncated length)

/-- Reads an entry into a record. -/
def entry (limits : Limits) (record : Record) : Reader FieldError Record := do
  let key ← reading .key text
  if key = Record.heightKey then
    let height ← reading .height int64
    return { record with height }
  else if key = Record.blockKey then
    let block ← block limits
    return { record with block }
  else
    reading .unknown skip
    return record

/-- Reads this many entries into a record, later ones over earlier ones. -/
def entries (limits : Limits) (count : Nat) (record : Record) (input : Input) :
    Except FieldError (Record × Input) :=
  match count with
  | 0 => .ok (record, input)
  | others + 1 =>
      match entry limits record input with
      | .error error => .error error
      | .ok (updated, rest) => entries limits others updated rest

/-- A record. -/
def record (limits : Limits) : Reader FieldError Record := do
  let count ← entryCount
  entries limits count {}

/-- Reads this many records behind those that are done. -/
def records (limits : Limits) (count : Nat) (done : Array Record) (input : Input) :
    Except DecodeError (List Record × Input) :=
  match count with
  | 0 => .ok (done.toList, input)
  | others + 1 =>
      match record limits input with
      | .error error => .error ⟨error, some done.size⟩
      | .ok (next, rest) => records limits others (done.push next) rest

/-- The number of records of a batch, held against the limit. -/
def recordCount (limits : Limits) : Reader FieldError Nat := do
  let count ← reading .batch arrayHeader
  if limits.maxRecords.toNat < count then
    throw ⟨.batch, .tooManyRecords count limits.maxRecords.toNat⟩
  else
    return count

/-- A batch at the front of the input, whatever stands after it. -/
def leading (limits : Limits) : Reader DecodeError (List Record) := do
  let count ← (recordCount limits).mapError fun error => ⟨error, none⟩
  records limits count #[]

/-- The batch that a byte string holds. -/
def decode (limits : Limits) (data : Bytes) : Except DecodeError (List Record) := do
  let (records, rest) ← leading limits (Input.ofBytes data)
  if rest.size ≠ 0 ∧ ¬limits.allowTrailing then
    throw ⟨⟨.batch, .trailingBytes rest.size⟩, none⟩
  else
    return records

end BlockFeed.Batch
