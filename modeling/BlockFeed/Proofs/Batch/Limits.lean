import BlockFeed.Proofs.Simulation
import BlockFeed.Proofs.Batch.Failures

/-! Limits only ever add errors of their own. What is read under some limits, or refused for any reason
but a limit, is read or refused in the same way under looser ones. What is accepted keeps to the limits
and does not depend on them. -/

namespace BlockFeed

open MessagePack Reader

/-- The first limits allow nothing that the second do not. -/
structure Limits.Tighter (tight loose : Limits) : Prop where
  records : tight.maxRecords ≤ loose.maxRecords
  blockSize : tight.maxBlockSize ≤ loose.maxBlockSize
  trailing : tight.allowTrailing → loose.allowTrailing

instance : LE Limits := ⟨Limits.Tighter⟩

/-- The limits that no batch exceeds. -/
def Limits.loosest : Limits where
  maxRecords := 0xffffffffffffffff
  maxBlockSize := 0xffffffffffffffff
  allowTrailing := true

theorem Limits.le_loosest (limits : Limits) : limits ≤ loosest where
  records := UInt64.le_iff_toNat_le.mpr (Nat.le_pred_of_lt limits.maxRecords.toNat_lt)
  blockSize := UInt64.le_iff_toNat_le.mpr (Nat.le_pred_of_lt limits.maxBlockSize.toNat_lt)
  trailing _ := rfl

namespace Cause

/-- Malformed, and not for the marker that starts no value. -/
def IsLimit (cause : Cause) : Prop :=
  (∃ reason, cause.kind = .malformed reason) ∧ cause.kind ≠ (fault .reserved).kind

-- The words of a limit are told from those of the reserved marker by the first or the last letter.

theorem isLimit_tooManyRecords (declared limit : Nat) : (tooManyRecords declared limit).IsLimit := by
  refine ⟨⟨_, rfl⟩, fun hSame => ?_⟩
  have hText := congrArg String.toList (ErrorKind.malformed.inj hSame)
  simp [toString] at hText

theorem isLimit_payloadTooLong (declared limit : Nat) : (payloadTooLong declared limit).IsLimit := by
  refine ⟨⟨_, rfl⟩, fun hSame => ?_⟩
  have hText := congrArg String.toList (ErrorKind.malformed.inj hSame)
  simp [toString] at hText

theorem isLimit_trailingBytes (count : Nat) : (trailingBytes count).IsLimit := by
  refine ⟨⟨_, rfl⟩, fun hSame => ?_⟩
  have hText := congrArg (fun text => text.toList.reverse) (ErrorKind.malformed.inj hSame)
  simp [toString] at hText

theorem not_isLimit_fault (fault : Fault) : ¬(Cause.fault fault).IsLimit := by
  rintro ⟨⟨reason, hKind⟩, hOther⟩
  cases fault with
  | truncated | unexpected => cases hKind
  | reserved => exact hOther rfl

end Cause

/-- An error that a limit adds. -/
def FieldError.IsLimit (error : FieldError) : Prop := error.cause.IsLimit

/-- The batch exceeds a limit: it has too many records, too long a block, or bytes behind it. -/
inductive DecodeError.Exceeds (limits : Limits) : DecodeError → Prop where
  | records {count : Nat} (hCount : limits.maxRecords.toNat < count) :
      Exceeds limits ⟨⟨.batch, .tooManyRecords count limits.maxRecords.toNat⟩, none⟩
  | blockSize {length index : Nat} (hLength : limits.maxBlockSize.toNat < length) :
      Exceeds limits ⟨⟨.block, .payloadTooLong length limits.maxBlockSize.toNat⟩, some index⟩
  | trailing {count : Nat} (hStrict : limits.allowTrailing = false) (hCount : 0 < count) :
      Exceeds limits ⟨⟨.batch, .trailingBytes count⟩, none⟩

theorem DecodeError.Exceeds.isLimit {limits : Limits} {error : DecodeError}
    (h : error.Exceeds limits) : error.IsLimit := by
  cases h with
  | records => exact Cause.isLimit_tooManyRecords _ _
  | blockSize => exact Cause.isLimit_payloadTooLong _ _
  | trailing => exact Cause.isLimit_trailingBytes _

namespace Batch

section Looser

variable {tight loose : Limits} (hLoose : tight ≤ loose)

include hLoose

theorem follows_block :
    Follows (· = ·) FieldError.IsLimit (block tight) (block loose) := by
  refine (follows_self _).bind fun length => ?_
  have hSize := UInt64.le_iff_toNat_le.mp hLoose.blockSize
  rintro input _ rfl
  split
  · refine .tolerated ?_ _
    exact Cause.isLimit_payloadTooLong _ _
  · next hShort =>
      rw [if_neg (by omega)]
      exact follows_self _ input input rfl

theorem follows_entry (record : Record) :
    Follows (· = ·) FieldError.IsLimit (entry tight record) (entry loose record) := by
  refine (follows_self _).bind fun key => ?_
  split
  · exact follows_self _
  · split
    · exact (follows_block hLoose).bind fun _ => follows_pure _
    · exact follows_self _

theorem follows_entries (count : Nat) (record : Record) :
    Follows (· = ·) FieldError.IsLimit (entries tight count record)
      (entries loose count record) := by
  induction count generalizing record with
  | zero => exact follows_pure record
  | succ others ih =>
      rw [entries_succ, entries_succ]
      exact (follows_entry hLoose record).bind ih

theorem follows_record :
    Follows (· = ·) FieldError.IsLimit (record tight) (record loose) :=
  (follows_self _).bind fun count => follows_entries hLoose count {}

theorem follows_records (count : Nat) (done : Array Record) :
    Follows (· = ·) (fun error => error.IsLimit) (records tight count done) (records loose count done) := by
  induction count generalizing done with
  | zero => exact follows_pure done.toList
  | succ others ih =>
      rw [records_succ, records_succ]
      refine Follows.bind ?_ fun next => ih (done.push next)
      exact (follows_record hLoose).mapError fun _ hLimit => hLimit

theorem follows_recordCount :
    Follows (· = ·) FieldError.IsLimit (recordCount tight) (recordCount loose) := by
  refine (follows_self _).bind fun count => ?_
  have hRecords := UInt64.le_iff_toNat_le.mp hLoose.records
  rintro input _ rfl
  split
  · refine .tolerated ?_ _
    exact Cause.isLimit_tooManyRecords _ _
  · rw [if_neg (by omega)]
    exact follows_self _ input input rfl

theorem follows_leading :
    Follows (· = ·) (fun error => error.IsLimit) (leading tight) (leading loose) := by
  refine Follows.bind ?_ fun count => follows_records hLoose count #[]
  exact (follows_recordCount hLoose).mapError fun _ hLimit => hLimit

/-- Bytes behind the batch, too, are only in the way of tighter limits. -/
theorem decode_of_tighter {data : Bytes}
    (hLimit : ∀ error, decode tight data = .error error → ¬error.IsLimit) :
    decode loose data = decode tight data := by
  have hFollows := follows_leading hLoose (Input.ofBytes data) _ rfl
  rcases leading_cases tight data with ⟨error, hLeading⟩ | ⟨result, rest, hLeading, hTail⟩ |
    ⟨result, rest, hLeading, hLeft, hStrict⟩
  · have hDecode := decode_of_leading_error hLeading
    rw [hLeading] at hFollows
    generalize hOutcome : leading loose (Input.ofBytes data) = outcome at hFollows
    cases hFollows with
    | error => rw [hDecode, decode_of_leading_error hOutcome]
    | tolerated hTolerated => exact absurd hTolerated (hLimit error hDecode)
  · rw [hLeading] at hFollows
    generalize hOutcome : leading loose (Input.ofBytes data) = outcome at hFollows
    cases hFollows with
    | ok hRest =>
        subst hRest
        rw [decode_of_leading hLeading hTail,
          decode_of_leading hOutcome (hTail.imp_right hLoose.trailing)]
  · have hDecode := decode_of_leading_trailing hLeading hLeft hStrict
    exact absurd (Cause.isLimit_trailingBytes _) (hLimit _ hDecode)

end Looser

section Errors

variable (limits : Limits)

/-- Of the errors that a limit adds, a record only has the one for a block that is too long. -/
def RecordRefusal (error : FieldError) : Prop :=
  error.IsLimit → ∃ length, limits.maxBlockSize.toNat < length ∧
    error = ⟨.block, .payloadTooLong length limits.maxBlockSize.toNat⟩

theorem recordRefusal_fault (field : Field) (fault : Fault) :
    RecordRefusal limits ⟨field, .fault fault⟩ :=
  fun hLimit => absurd hLimit (Cause.not_isLimit_fault fault)

theorem failsOnly_reading {α : Type} {Error : FieldError → Prop} {field : Field}
    (reader : Reader Fault α) (hError : ∀ fault, Error ⟨field, .fault fault⟩) :
    FailsOnly (reading field reader) Error := by
  have hAny : FailsOnly reader fun _ => True := fun _ _ _ => trivial
  exact hAny.mapError fun fault _ => hError fault

theorem failsOnly_entryCount : FailsOnly entryCount (RecordRefusal limits) := by
  refine (failsOnly_reading _ (recordRefusal_fault limits _)).bind fun count => ?_
  refine FailsOnly.bind (fun _ _ h => by cases h) fun remaining => ?_
  split
  · exact failsOnly_throw (recordRefusal_fault limits _ _)
  · exact failsOnly_pure _

theorem failsOnly_block : FailsOnly (block limits) (RecordRefusal limits) := by
  refine (failsOnly_reading _ (recordRefusal_fault limits _)).bind fun length => ?_
  split
  · next hLong => exact failsOnly_throw fun _ => ⟨length, hLong, rfl⟩
  · exact failsOnly_reading _ (recordRefusal_fault limits _)

theorem failsOnly_record : FailsOnly (record limits) (RecordRefusal limits) := by
  intro input error h
  obtain ⟨place, -, hPart⟩ := exists_part_of_record_error h
  cases hPart with
  | count hCount => exact failsOnly_entryCount limits hCount
  | key hValue | height hValue | unknown hValue =>
      exact failsOnly_reading _ (recordRefusal_fault limits _) hValue
  | block hBlock => exact failsOnly_block limits hBlock

theorem failsOnly_records (count : Nat) (done : Array Record) :
    FailsOnly (records limits count done) (fun error => error.IsLimit → error.Exceeds limits) := by
  intro input error h hLimit
  obtain ⟨index, place, hIndex, -, -, -, -, hRecord⟩ := exists_record_of_records_error h
  obtain ⟨length, hLength, hOwn⟩ := failsOnly_record limits hRecord hLimit
  obtain ⟨own, _⟩ := error
  cases hIndex
  cases hOwn
  exact .blockSize hLength

theorem failsOnly_recordCount : FailsOnly (recordCount limits)
    (fun error => error.IsLimit → DecodeError.Exceeds limits ⟨error, none⟩) := by
  refine (failsOnly_reading _ fun fault hLimit => ?_).bind fun count => ?_
  · exact absurd hLimit (Cause.not_isLimit_fault fault)
  · split
    · next hMany => exact failsOnly_throw fun _ => .records hMany
    · exact failsOnly_pure _

theorem failsOnly_leading :
    FailsOnly (leading limits) (fun error => error.IsLimit → error.Exceeds limits) := by
  refine FailsOnly.bind ?_ fun count => failsOnly_records limits count #[]
  exact (failsOnly_recordCount limits).mapError fun error hError => hError

/-- There are three errors that a limit adds, one for each limit. -/
theorem isLimit_iff_exceeds {data : Bytes} {error : DecodeError}
    (h : decode limits data = .error error) : error.IsLimit ↔ error.Exceeds limits := by
  refine ⟨fun hLimit => ?_, DecodeError.Exceeds.isLimit⟩
  rcases decode_eq_error_iff_leading.mp h with hLeading | ⟨result, rest, -, hLeft, hStrict, rfl⟩
  · exact failsOnly_leading limits hLeading hLimit
  · exact .trailing hStrict (List.length_pos_iff.mpr hLeft)

end Errors

variable {limits : Limits} {data : Bytes} {result : List Record}

theorem decode_loosest_of_ok (h : decode limits data = .ok result) :
    decode .loosest data = .ok result := by
  rw [decode_of_tighter limits.le_loosest, h]
  intro error hError
  rw [h] at hError
  cases hError

/-- What is accepted keeps to the limits. -/
theorem within_of_ok (h : decode limits data = .ok result) :
    result.length ≤ limits.maxRecords.toNat ∧
      ∀ record ∈ result, record.block.length ≤ limits.maxBlockSize.toNat := by
  obtain ⟨rest, hLeading, -⟩ := decode_eq_ok_iff_leading.mp h
  obtain ⟨word, ⟨batch, -, hCount, hWithin, rfl⟩, -⟩ := (reads_leading limits _ _ _).mp hLeading
  refine ⟨by rwa [List.length_map], fun record hRecord => ?_⟩
  obtain ⟨list, hList, rfl⟩ := List.mem_map.mp hRecord
  rcases Record.block_ofEntries_cases list with hNone | hBlock
  · rw [hNone]
    exact Nat.zero_le _
  · exact (Entry.within_iff limits list).mp (hWithin list hList) _ hBlock

/-- Looser limits change no outcome but the errors of the limits themselves, which are three. A batch
that is accepted keeps to the limits, and is the same under all limits that accept it. -/
theorem decode_limits (data : Bytes) :
    (∀ tight loose : Limits, tight ≤ loose →
      (∀ error, decode tight data = .error error → ¬error.IsLimit) →
        decode loose data = decode tight data) ∧
    (∀ limits error, decode limits data = .error error →
      (error.IsLimit ↔ error.Exceeds limits)) ∧
    (∀ limits result, decode limits data = .ok result →
      result.length ≤ limits.maxRecords.toNat ∧
        ∀ record ∈ result, record.block.length ≤ limits.maxBlockSize.toNat) ∧
    (∀ first second result result', decode first data = .ok result →
      decode second data = .ok result' → result = result') := by
  refine ⟨fun tight loose hLoose => decode_of_tighter hLoose, fun limits error => isLimit_iff_exceeds limits,
    fun limits result => within_of_ok, fun first second result result' hFirst hSecond => ?_⟩
  have hSame : Except.ok (ε := DecodeError) result = .ok result' :=
    (decode_loosest_of_ok hFirst).symm.trans (decode_loosest_of_ok hSecond)
  exact Except.ok.inj hSame

end Batch

end BlockFeed
