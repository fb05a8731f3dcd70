import BlockFeed.Proofs.MessagePack.LookAhead
import BlockFeed.Proofs.Batch.Acceptance

/-! Batches read with and without looking ahead. A reader may hold a declared number against the bytes
left in two places, the header of a record and a value that is read past. Either test only brings a
truncation forward: it refuses no batch, and hides no error but behind a truncation. -/

namespace BlockFeed.Batch

open MessagePack Reader

/-- How the two places are read at which a reader may look ahead. -/
structure LookAhead where
  entryCount : Reader FieldError Nat
  skip : Reader Fault Unit

namespace LookAhead

/-- Both tests are made. -/
def tested : LookAhead := ⟨Batch.entryCount, MessagePack.skip⟩

/-- Neither test is made, and only a byte that is missing or wrong is an error. -/
def untested : LookAhead := ⟨reading .record mapHeader, pass⟩

section Readers

variable (ahead : LookAhead) (limits : Limits)

/-- Reads an entry into a record. -/
def entry (record : Record) : Reader FieldError Record := do
  let key ← reading .key text
  if key = Record.heightKey then
    let height ← reading .height int64
    return { record with height }
  else if key = Record.blockKey then
    let block ← block limits
    return { record with block }
  else
    reading .unknown ahead.skip
    return record

/-- Reads this many entries into a record, later ones over earlier ones. -/
def entries : Nat → Record → Reader FieldError Record
  | 0, record => pure record
  | others + 1, record => do
      let updated ← entry ahead limits record
      entries others updated

/-- A record. -/
def record : Reader FieldError Record := do
  let count ← ahead.entryCount
  entries ahead limits count {}

/-- Reads this many records behind those that are done. -/
def records : Nat → Array Record → Reader DecodeError (List Record)
  | 0, done => pure done.toList
  | others + 1, done => do
      let next ← (record ahead limits).mapError fun error => ⟨error, some done.size⟩
      records others (done.push next)

/-- A batch at the front of the input, whatever stands after it. -/
def leading : Reader DecodeError (List Record) := do
  let count ← (recordCount limits).mapError fun error => ⟨error, none⟩
  records ahead limits count #[]

/-- The batch that a byte string holds. -/
def decode (data : Bytes) : Except DecodeError (List Record) := do
  let (records, rest) ← leading ahead limits (Input.ofBytes data)
  if rest.size ≠ 0 ∧ ¬limits.allowTrailing then
    throw ⟨⟨.batch, .trailingBytes rest.size⟩, none⟩
  else
    return records

end Readers

variable {limits : Limits}

theorem tested_entries (count : Nat) (record : Record) :
    tested.entries limits count record = Batch.entries limits count record := by
  induction count generalizing record with
  | zero => rfl
  | succ others ih =>
      rw [entries_succ, entries]
      congr 1
      funext updated
      exact ih updated

theorem tested_record : tested.record limits = Batch.record limits := by
  rw [record, Batch.record]
  congr 1
  funext count
  exact tested_entries count {}

theorem tested_records (count : Nat) (done : Array Record) :
    tested.records limits count done = Batch.records limits count done := by
  induction count generalizing done with
  | zero => rfl
  | succ others ih =>
      rw [records_succ, records, tested_record]
      congr 1
      funext next
      exact ih (done.push next)

/-- The reader of batches is the one that makes both tests. -/
theorem tested_decode (limits : Limits) (data : Bytes) :
    tested.decode limits data = Batch.decode limits data := by
  have hLeading : tested.leading limits = Batch.leading limits := by
    rw [leading, Batch.leading]
    congr 1
    funext count
    exact tested_records count #[]
  rw [decode, Batch.decode, hLeading]

/-- An entry takes a byte for its name and one for its value at least, whatever is tested. -/
theorem size_add_le_of_entry {record updated : Record} {input rest : Input}
    (h : untested.entry limits record input = .ok (updated, rest)) :
    rest.size + Record.minEntrySize ≤ input.size := by
  obtain ⟨key, middle, hKey, hValue⟩ := bind_eq_ok_iff.mp h
  have hName := (reads_reading .key reads_text).size_add_le (fun _ _ hWord => hWord.length_pos) hKey
  suffices hRest : rest.size + 1 ≤ middle.size by
    rw [Record.minEntrySize]
    omega
  split at hValue
  · obtain ⟨height, _, hHeight, hDone⟩ := bind_eq_ok_iff.mp hValue
    obtain ⟨-, rfl⟩ := pure_eq_ok_iff.mp hDone
    exact (reads_reading .height reads_int64).size_add_le (fun _ _ hWord => hWord.length_pos) hHeight
  · split at hValue
    · obtain ⟨block, _, hBlock, hDone⟩ := bind_eq_ok_iff.mp hValue
      obtain ⟨-, rfl⟩ := pure_eq_ok_iff.mp hDone
      exact (reads_block limits).size_add_le (fun _ _ hWord => hWord.1.length_pos) hBlock
    · obtain ⟨_, _, hPass, hDone⟩ := bind_eq_ok_iff.mp hValue
      obtain ⟨-, rfl⟩ := pure_eq_ok_iff.mp hDone
      exact size_add_le_of_passValues (mapError_eq_ok_iff.mp hPass)

theorem size_add_le_of_entries {count : Nat} {record updated : Record} {input rest : Input}
    (h : untested.entries limits count record input = .ok (updated, rest)) :
    rest.size + Record.minEntrySize * count ≤ input.size := by
  induction count generalizing record input with
  | zero =>
      obtain ⟨-, rfl⟩ := pure_eq_ok_iff.mp h
      exact Nat.le_refl _
  | succ others ih =>
      obtain ⟨next, middle, hEntry, hEntries⟩ := bind_eq_ok_iff.mp h
      have hHead := size_add_le_of_entry hEntry
      have hTail := ih hEntries
      rw [Nat.mul_succ]
      omega

theorem looksAhead_entry (record : Record) :
    LooksAhead (fun error => error.cause.kind = .truncated) (tested.entry limits record)
      (untested.entry limits record) := by
  refine (looksAhead_self _).bind fun key => ?_
  split
  · exact looksAhead_self _
  · split
    · exact looksAhead_self _
    · refine LooksAhead.bind ?_ fun _ => looksAhead_self _
      refine (looksAhead_skipValues 1).mapError fun fault hFault => ?_
      rw [hFault]
      rfl

theorem looksAhead_entries (count : Nat) (record : Record) :
    LooksAhead (fun error => error.cause.kind = .truncated) (tested.entries limits count record)
      (untested.entries limits count record) := by
  induction count generalizing record with
  | zero => exact looksAhead_self _
  | succ others ih => exact (looksAhead_entry record).bind ih

/-- Behind the header the number of entries is held against the bytes left. -/
theorem entryCount_of_header {count : Nat} {input middle : Input}
    (h : reading .record mapHeader input = .ok (count, middle)) : Batch.entryCount input =
      if middle.size < Record.minEntrySize * count then .error ⟨.record, .fault .truncated⟩
      else .ok (count, middle) := by
  rw [Batch.entryCount, bind_ok h,
    bind_ok (show Reader.remaining middle = .ok (middle.size, middle) from rfl)]
  split <;> rfl

/-- Where the test on the number of entries fails, the entries themselves fail without it. -/
theorem looksAhead_record :
    LooksAhead (fun error => error.cause.kind = .truncated) (tested.record limits)
      (untested.record limits) := by
  intro input
  rw [record, record]
  cases hHeader : reading .record mapHeader input with
  | error error =>
      have hTested : tested.entryCount input = .error error := bind_error hHeader
      have hUntested : untested.entryCount input = .error error := hHeader
      rw [bind_error hTested, bind_error hUntested]
      exact .same _
  | ok outcome =>
      obtain ⟨count, middle⟩ := outcome
      have hTested : tested.entryCount input = _ := entryCount_of_header hHeader
      have hUntested : untested.entryCount input = .ok (count, middle) := hHeader
      rw [bind_ok hUntested]
      split at hTested
      · next hFew =>
          rw [bind_error hTested]
          cases hEntries : untested.entries limits count {} middle with
          | error error => exact .early (by rfl) error
          | ok outcome =>
              have hSize := size_add_le_of_entries hEntries
              omega
      · rw [bind_ok hTested]
        exact looksAhead_entries count {} middle

theorem looksAhead_records (count : Nat) (done : Array Record) :
    LooksAhead (fun error => error.kind = .truncated) (tested.records limits count done)
      (untested.records limits count done) := by
  induction count generalizing done with
  | zero => exact looksAhead_self _
  | succ others ih =>
      refine LooksAhead.bind ?_ fun next => ih (done.push next)
      exact looksAhead_record.mapError fun _ hEarly => hEarly

theorem anticipates_decode (limits : Limits) (data : Bytes) :
    Anticipates (fun error => error.kind = .truncated) (Batch.decode limits data)
      (untested.decode limits data) := by
  rw [← tested_decode]
  have hLeading : LooksAhead (fun error => error.kind = .truncated) (tested.leading limits)
      (untested.leading limits) :=
    (looksAhead_self _).bind fun count => looksAhead_records count #[]
  exact (hLeading (Input.ofBytes data)).bind fun outcome => .same _

end LookAhead

/-- The tests that look ahead are sound. With them and without them the same batches are accepted, with
the same records. An error that is no truncation is the same without them, a truncation is an error
without them, and an error that is no truncation without them is the same with them or comes too late
behind a truncation. -/
theorem decode_untested (limits : Limits) (data : Bytes) :
    LookAhead.tested.decode limits data = decode limits data ∧
    (∀ result, decode limits data = .ok result ↔
      LookAhead.untested.decode limits data = .ok result) ∧
    (∀ error, decode limits data = .error error → error.kind ≠ .truncated →
      LookAhead.untested.decode limits data = .error error) ∧
    (∀ error, decode limits data = .error error → error.kind = .truncated →
      ∃ error', LookAhead.untested.decode limits data = .error error') ∧
    (∀ error, LookAhead.untested.decode limits data = .error error → error.kind ≠ .truncated →
      decode limits data = .error error ∨
        ∃ error', decode limits data = .error error' ∧ error'.kind = .truncated) := by
  refine ⟨LookAhead.tested_decode limits data, ?_⟩
  have h := LookAhead.anticipates_decode limits data
  generalize decode limits data = outcome at h
  generalize LookAhead.untested.decode limits data = outcome' at h
  refine ⟨fun result => h.ok_iff result, ?_, ?_, ?_⟩
  · intro error hError hKind
    cases h with
    | same => exact hError
    | early hEarly =>
        cases hError
        exact absurd hEarly hKind
  · intro error hError hKind
    cases h with
    | same => exact ⟨error, hError⟩
    | early _ error' => exact ⟨error', rfl⟩
  · intro error hError hKind
    cases h with
    | same => exact Or.inl hError
    | early hEarly => exact Or.inr ⟨_, rfl, hEarly⟩

/-- Two entries need four bytes. The test does not wait for the first name, which is none. -/
example : decode .standard [0x91, 0x82, 0xc1] = .error ⟨⟨.record, .fault .truncated⟩, some 0⟩ ∧
    LookAhead.untested.decode .standard [0x91, 0x82, 0xc1] =
      .error ⟨⟨.key, .fault .reserved⟩, some 0⟩ := by
  constructor <;> cbv

end BlockFeed.Batch
