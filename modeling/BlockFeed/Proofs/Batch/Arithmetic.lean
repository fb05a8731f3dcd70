import BlockFeed.Proofs.Batch.Steps
import BlockFeed.Proofs.MessagePack.Arithmetic

/-! Batches read by a cursor of 64 bits, computing with numbers that wrap. On data that a memory holds
nothing wraps: the cursor stays within the data and moves forward only, all counts are what they are
without a bound, and the outcome is that of the reader whose numbers have no bound. -/

namespace BlockFeed

namespace Cursor

open MessagePack

/-- The reader of a field: its faults are faults of that field. -/
def reading {α : Type} (field : Field) (reader : CursorReader Fault α) : CursorReader FieldError α :=
  mapError (fun fault => ⟨field, .fault fault⟩) reader

/-- The number of entries of a record, held against half the number of bytes left. -/
def entryCount : CursorReader FieldError UInt64 := do
  let entries ← reading .record mapHeader
  let rest ← remaining
  if rest / UInt64.ofNat Record.minEntrySize < entries then
    throw ⟨.record, .fault .truncated⟩
  else
    return entries

section Readers

variable (limits : Limits)

/-- A block, whose declared length is held against the limit before its bytes are taken. -/
def block : CursorReader FieldError Bytes := do
  let length ← reading .block binaryHeader
  if limits.maxBlockSize < length then
    throw ⟨.block, .payloadTooLong length.toNat limits.maxBlockSize.toNat⟩
  else
    reading .block (take .truncated length)

/-- Reads an entry into a record. -/
def entry (record : Record) : CursorReader FieldError Record := do
  let key ← reading .key text
  if key = Record.heightKey then
    let height ← reading .height int64
    return { record with height }
  else if key = Record.blockKey then
    let block ← block limits
    return { record with block }
  else
    reading .unknown skip
    return record

/-- Reads this many entries into a record, later ones over earlier ones. -/
def entries : Nat → Record → CursorReader FieldError Record
  | 0, record => pure record
  | others + 1, record => do
      let updated ← entry limits record
      entries others updated

/-- A record. -/
def record : CursorReader FieldError Record := do
  let count ← entryCount
  entries limits count.toNat {}

/-- Reads this many records behind those that are done. -/
def records : Nat → Array Record → CursorReader DecodeError (List Record)
  | 0, done => pure done.toList
  | others + 1, done => do
      let next ← mapError (fun error => ⟨error, some done.size⟩) (record limits)
      records others (done.push next)

/-- The number of records of a batch, held against the limit. -/
def recordCount : CursorReader FieldError UInt64 := do
  let count ← reading .batch arrayHeader
  if limits.maxRecords < count then
    throw ⟨.batch, .tooManyRecords count.toNat limits.maxRecords.toNat⟩
  else
    return count

/-- A batch at the front of the data. How many bytes are left behind its header bounds the room that is
set aside for records, which no outcome depends on. -/
def leading : CursorReader DecodeError (List Record) := do
  let count ← mapError (fun error => ⟨error, none⟩) (recordCount limits)
  let _room ← remaining
  records limits count.toNat #[]

/-- The batch that all of the data holds. -/
def batch : CursorReader DecodeError (List Record) := do
  let records ← leading limits
  let rest ← remaining
  if 0 < rest ∧ ¬limits.allowTrailing then
    throw ⟨⟨.batch, .trailingBytes rest.toNat⟩, none⟩
  else
    return records

/-- The batch that a byte string holds, and the cursor where reading has stopped. -/
def decode (data : Bytes) : Except DecodeError (List Record) × Cursor :=
  batch limits (Cursor.ofBytes data)

end Readers

variable {limits : Limits}

theorem tracks_reading {α β : Type} {Same : α → β → Prop} (field : Field) {reader : Reader Fault α}
    {reader' : CursorReader Fault β} (hTracks : Tracks Same reader reader') :
    Tracks Same (Batch.reading field reader) (reading field reader') :=
  hTracks.mapError

/-- Half of the bytes left are fewer than the entries when the bytes are fewer than twice the entries. -/
theorem tracks_entryCount : Tracks Counts Batch.entryCount entryCount := by
  refine (tracks_reading .record tracks_mapHeader).bind fun count count' hCount => ?_
  refine tracks_remaining.bind fun size left hLeft => ?_
  have hTest : left / UInt64.ofNat Record.minEntrySize < count' ↔
      size < Record.minEntrySize * count := by
    rw [UInt64.lt_iff_toNat_lt, UInt64.toNat_div, hLeft, hCount.2]
    show size / 2 < count ↔ size < 2 * count
    omega
  simp only [hTest]
  split
  · exact tracks_throw _
  · exact tracks_pure hCount

theorem tracks_block : Tracks (fun block block' => block' = block) (Batch.block limits)
    (block limits) := by
  refine (tracks_reading .block tracks_binaryHeader).bind fun length length' hLength => ?_
  simp only [UInt64.lt_iff_toNat_lt, hLength.2]
  split
  · exact tracks_throw _
  · refine tracks_reading .block ?_
    exact (tracks_take Fault.truncated hLength.2).mono fun _ _ h => h.1

theorem tracks_entry (own : Record) :
    Tracks (fun record record' => record' = record) (Batch.entry limits own) (entry limits own) := by
  refine (tracks_reading .key tracks_text).bind ?_
  rintro _ key rfl
  split
  · refine (tracks_reading .height tracks_int64).bind ?_
    rintro _ height rfl
    exact tracks_pure rfl
  · split
    · refine tracks_block.bind ?_
      rintro _ block rfl
      exact tracks_pure rfl
    · exact (tracks_reading .unknown tracks_skip).bind fun _ _ _ => tracks_pure rfl

theorem tracks_entries (count : Nat) (own : Record) :
    Tracks (fun record record' => record' = record) (Batch.entries limits count own)
      (entries limits count own) := by
  induction count generalizing own with
  | zero => exact tracks_pure rfl
  | succ others ih =>
      rw [Batch.entries_succ, entries]
      refine (tracks_entry own).bind ?_
      rintro _ updated rfl
      exact ih updated

theorem tracks_record :
    Tracks (fun record record' => record' = record) (Batch.record limits) (record limits) := by
  refine tracks_entryCount.bind fun count count' hCount => ?_
  rw [hCount.2]
  exact tracks_entries count {}

theorem tracks_records (count : Nat) (done : Array Record) :
    Tracks (fun records records' => records' = records) (Batch.records limits count done)
      (records limits count done) := by
  induction count generalizing done with
  | zero => exact tracks_pure rfl
  | succ others ih =>
      rw [Batch.records_succ, records]
      refine tracks_record.mapError.bind ?_
      rintro _ next rfl
      exact ih (done.push next)

theorem tracks_recordCount : Tracks Counts (Batch.recordCount limits) (recordCount limits) := by
  refine (tracks_reading .batch tracks_arrayHeader).bind fun count count' hCount => ?_
  simp only [UInt64.lt_iff_toNat_lt, hCount.2]
  split
  · exact tracks_throw _
  · exact tracks_pure hCount

theorem tracks_leading :
    Tracks (fun records records' => records' = records) (Batch.leading limits) (leading limits) := by
  refine tracks_recordCount.mapError.bind fun count count' hCount => ?_
  have hRoom : Computes (remaining : CursorReader DecodeError UInt64) (fun _ => True) :=
    fun cursor hSound => .ok trivial (hSound.note hSound.position_le_length) rfl rfl
  refine hRoom.bind fun _ _ => ?_
  rw [hCount.2]
  exact tracks_records count #[]

end Cursor

namespace Batch

open Cursor (Tracks)

/-- A batch as a reader of all of an input. -/
def whole (limits : Limits) : Reader DecodeError (List Record) := do
  let records ← leading limits
  let size ← Reader.remaining
  if size ≠ 0 ∧ ¬limits.allowTrailing then
    throw ⟨⟨.batch, .trailingBytes size⟩, none⟩
  else
    return records

theorem decode_eq_whole (limits : Limits) (data : Bytes) :
    decode limits data = (whole limits (Input.ofBytes data)).map Prod.fst := by
  rw [decode, whole]
  cases hLeading : leading limits (Input.ofBytes data) with
  | error error =>
      rw [Reader.bind_error hLeading]
      rfl
  | ok outcome =>
      obtain ⟨records, rest⟩ := outcome
      rw [Reader.bind_ok hLeading,
        Reader.bind_ok (show Reader.remaining rest = .ok (rest.size, rest) from rfl)]
      show (if _ then _ else _) = _
      split <;> rfl

theorem tracks_whole (limits : Limits) :
    Tracks (fun records records' => records' = records) (whole limits) (Cursor.batch limits) := by
  refine Cursor.tracks_leading.bind ?_
  rintro _ records rfl
  refine Cursor.tracks_remaining.bind fun size left hLeft => ?_
  have hTest : 0 < left ↔ size ≠ 0 := by
    rw [UInt64.lt_iff_toNat_lt, hLeft, UInt64.toNat_zero]
    exact Nat.pos_iff_ne_zero
  simp only [hTest, hLeft]
  split
  · exact Cursor.tracks_throw _
  · exact Cursor.tracks_pure rfl

/-- Nothing that is computed in reading a batch wraps. A cursor of 64 bits on less than `2 ^ 63` bytes
gives the outcome of the reader whose numbers have no bound. In all that it has computed no difference
was below zero, no sum and no product too large for 64 bits, all slices were within the data, there were
never more pending values than bytes behind the test on them, and the position has only gone forward. -/
theorem cursor_decode_sound (limits : Limits) (data : Bytes) (h : data.length < 2 ^ 63) :
    (Cursor.decode limits data).1 = decode limits data ∧
    (Cursor.decode limits data).2.Sound ∧ (Cursor.decode limits data).2.data = data := by
  have hAgrees := tracks_whole limits (Cursor.ofBytes data) (Cursor.Sound.ofBytes h)
  rw [decode_eq_whole, Cursor.decode]
  have hInput : (Cursor.ofBytes data).input = Input.ofBytes data := rfl
  rw [hInput] at hAgrees
  generalize whole limits (Input.ofBytes data) = outcome at hAgrees ⊢
  generalize Cursor.batch limits (Cursor.ofBytes data) = outcome' at hAgrees ⊢
  cases hAgrees with
  | ok hSame hSound hData hRest =>
      subst hSame
      exact ⟨rfl, hSound, hData⟩
  | error hSound hData => exact ⟨rfl, hSound, hData⟩

/-- A map of as many entries as 32 bits tell, inside of a map. Two values are pending with six bytes left,
the number of entries is taken from four of these, and its double and one value more are held against
the last byte. These are computed in this order, the last of them first in the history. -/
theorem cursor_decode_sound_map_of_maps :
    let data : Bytes := [0x91, 0x81, 0xa1, 0x78, 0x81, 0xdf, 0xff, 0xff, 0xff, 0xff, 0xc0]
    data.length < 2 ^ 63 ∧ decode .standard data = .error ⟨⟨.unknown, .fault .truncated⟩, some 0⟩ ∧
      [⟨10, .difference 11 10⟩, ⟨10, .sum 1 0x1fffffffe⟩, ⟨10, .product 2 0xffffffff⟩,
        ⟨6, .slice 6 10⟩, ⟨5, .admitted 2 6⟩].Sublist (Cursor.decode .standard data).2.history ∧
      (Cursor.decode .standard data).1 = decode .standard data ∧
      (Cursor.decode .standard data).2.Sound ∧ (Cursor.decode .standard data).2.data = data := by
  refine ⟨by decide, by decide +kernel, by decide +kernel, ?_⟩
  exact cursor_decode_sound .standard _ (by decide)

end Batch

end BlockFeed
