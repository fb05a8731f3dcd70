import BlockFeed.Proofs.MessagePack.Stability
import BlockFeed.Proofs.Batch.Failures

/-! What the reader of batches makes of the front of an input it makes of the whole, unless it runs
out of bytes, and then it gets at least as far in the whole. -/

namespace BlockFeed

open MessagePack Reader

namespace Batch

variable {limits : Limits} {more : Bytes}

theorem stable_reading {α : Type} (field : Field) {reader : Reader Fault α}
    (hStable : Stable more (· = .truncated) reader) :
    Stable more (fun error => error.cause.kind = .truncated) (reading field reader) := by
  refine hStable.mapError fun fault hFault => ?_
  rw [hFault]
  rfl

/-- A number of entries beyond the bytes that are left is a truncation of the header. -/
theorem stable_entryCount :
    Stable more (fun error => error.cause.kind = .truncated) entryCount := by
  intro input longer hLonger
  refine (stable_reading .record (stable_header _ _) input longer hLonger).bind
    fun count rest rest' _ hRest => ?_
  have hSize := hRest.size_le
  rw [bind_ok (show Reader.remaining rest = .ok (rest.size, rest) from rfl),
    bind_ok (show Reader.remaining rest' = .ok (rest'.size, rest') from rfl)]
  split
  · exact .tolerated (by rfl) _
  · next hRoom =>
      rw [if_neg (by omega)]
      exact .ok hRest

theorem stable_block (limits : Limits) :
    Stable more (fun error => error.cause.kind = .truncated) (block limits) := by
  refine (stable_reading .block (stable_header _ _)).bind fun length => ?_
  split
  · exact follows_throw _
  · exact stable_reading .block (stable_take length)

theorem stable_entry (limits : Limits) (record : Record) :
    Stable more (fun error => error.cause.kind = .truncated) (entry limits record) := by
  refine (stable_reading .key stable_text).bind fun key => ?_
  split
  · exact (stable_reading .height stable_int64).bind fun _ => follows_pure _
  · split
    · exact (stable_block limits).bind fun _ => follows_pure _
    · exact (stable_reading .unknown stable_skip).bind fun _ => follows_pure _

theorem stable_entries (limits : Limits) (count : Nat) (record : Record) :
    Stable more (fun error => error.cause.kind = .truncated) (entries limits count record) := by
  induction count generalizing record with
  | zero => exact follows_pure record
  | succ others ih =>
      rw [entries_succ]
      exact (stable_entry limits record).bind ih

theorem stable_record (limits : Limits) :
    Stable more (fun error => error.cause.kind = .truncated) (record limits) :=
  stable_entryCount.bind fun count => stable_entries limits count {}

theorem stable_records (limits : Limits) (count : Nat) (done : Array Record) :
    Stable more (fun error => error.kind = .truncated) (records limits count done) := by
  induction count generalizing done with
  | zero => exact follows_pure done.toList
  | succ others ih =>
      rw [records_succ]
      exact ((stable_record limits).mapError fun _ hTruncated => hTruncated).bind fun next =>
        ih (done.push next)

theorem stable_recordCount (limits : Limits) :
    Stable more (fun error => error.cause.kind = .truncated) (recordCount limits) := by
  refine (stable_reading .batch (stable_header _ _)).bind fun count => ?_
  split
  · exact follows_throw _
  · exact follows_pure count

theorem stable_leading (limits : Limits) :
    Stable more (fun error => error.kind = .truncated) (leading limits) :=
  ((stable_recordCount limits).mapError fun _ hTruncated => hTruncated).bind fun count =>
    stable_records limits count #[]

/-- An error of the loop names a record that is not done. -/
theorem record_of_records_error {count : Nat} {done : Array Record} {input : Input}
    {error : DecodeError} (h : records limits count done input = .error error) :
    ∃ index, error.record = some index ∧ done.size ≤ index ∧ index < done.size + count := by
  obtain ⟨index, -, hIndex, hLower, hUpper, -⟩ := exists_record_of_records_error h
  exact ⟨index, hIndex, hLower, hUpper⟩

/-- More bytes never move an error to an earlier record. -/
theorem records_error_mono {count : Nat} {done : Array Record} {input longer : Input}
    {error error' : DecodeError} (hLonger : Input.Extends more input longer)
    (hShort : records limits count done input = .error error)
    (hLong : records limits count done longer = .error error') {index : Nat}
    (hIndex : error.record = some index) : ∃ index', error'.record = some index' ∧ index ≤ index' := by
  induction count generalizing done input longer with
  | zero => cases hShort
  | succ others ih =>
      have hRecord := stable_record limits input longer hLonger
      cases hNext : record limits input with
      | error own =>
          rw [records, hNext] at hShort
          cases hShort
          cases hIndex
          obtain ⟨index', hIndex', hLower, -⟩ := record_of_records_error hLong
          exact ⟨index', hIndex', hLower⟩
      | ok outcome =>
          obtain ⟨next, rest⟩ := outcome
          rw [hNext] at hRecord
          generalize hNext' : record limits longer = outcome' at hRecord
          cases hRecord with
          | ok hRest =>
              rw [records, hNext] at hShort
              rw [records, hNext'] at hLong
              exact ih hRest hShort hLong

theorem leading_error_mono {input longer : Input} {error error' : DecodeError}
    (hLonger : Input.Extends more input longer) (hShort : leading limits input = .error error)
    (hLong : leading limits longer = .error error') {index : Nat}
    (hIndex : error.record = some index) : ∃ index', error'.record = some index' ∧ index ≤ index' := by
  have hCount := stable_recordCount limits input longer hLonger
  cases hHeader : recordCount limits input with
  | error own =>
      have hStart : (recordCount limits).mapError (fun error => DecodeError.mk error none) input =
          .error ⟨own, none⟩ := by rw [mapError, hHeader]
      rw [leading, bind_error hStart] at hShort
      cases hShort
      cases hIndex
  | ok outcome =>
      obtain ⟨count, rest⟩ := outcome
      rw [hHeader] at hCount
      generalize hHeader' : recordCount limits longer = outcome' at hCount
      cases hCount with
      | @ok _ _ rest' hRest =>
          rw [leading, bind_ok (mapError_eq_ok_iff.mpr hHeader)] at hShort
          rw [leading, bind_ok (mapError_eq_ok_iff.mpr hHeader')] at hLong
          exact records_error_mono hRest hShort hLong hIndex

end Batch

end BlockFeed
