import BlockFeed.Proofs.Reading
import BlockFeed.Batch.Decode

/-! How the loops over entries and records split, and how an outcome of a part becomes the outcome
of the whole. -/

namespace BlockFeed

/-- The same limits with another answer to bytes behind the batch. -/
def Limits.withTrailing (limits : Limits) (allow : Bool) : Limits :=
  { limits with allowTrailing := allow }

namespace Batch

open MessagePack Reader

/-- The outcome is this error, and it says that the data is malformed, for this reason. -/
def IsMalformed (outcome : Except DecodeError (List Record)) (error : DecodeError)
    (reason : String) : Prop :=
  outcome = .error error ∧ error.kind = .malformed reason

variable {limits : Limits}

theorem entries_succ (limits : Limits) (others : Nat) (record : Record) :
    (entries limits (others + 1) record : Reader FieldError Record) =
      (entry limits record >>= fun updated => entries limits others updated) := by
  funext input
  simp only [entries, bind, StateT.bind, Except.bind]
  cases entry limits record input <;> rfl

theorem records_succ (limits : Limits) (others : Nat) (done : Array Record) :
    (records limits (others + 1) done : Reader DecodeError (List Record)) =
      ((record limits).mapError fun error => ⟨error, some done.size⟩) >>= fun next =>
        records limits others (done.push next) := by
  funext input
  simp only [records, mapError, bind, StateT.bind, Except.bind]
  cases record limits input <;> rfl

/-- The records of a batch can be read in two runs, the second behind the records of the first. -/
theorem records_add (limits : Limits) (first second : Nat) (done : Array Record) :
    records limits (first + second) done = bind (m := Reader DecodeError)
      (records limits first done) fun front => records limits second front.toArray := by
  induction first generalizing done with
  | zero =>
      funext input
      rw [bind_ok (show records limits 0 done input = .ok (done.toList, input) from rfl), Nat.zero_add,
        Array.toArray_toList]
  | succ others ih =>
      rw [Nat.succ_add, records_succ, records_succ, bind_assoc]
      congr 1
      funext next
      exact ih (done.push next)

theorem entries_congr {limits' : Limits} (hSize : limits.maxBlockSize = limits'.maxBlockSize)
    (count : Nat) (record : Record) : entries limits count record = entries limits' count record := by
  have hEntry : ∀ record, entry limits record = entry limits' record := by
    intro record
    simp only [entry, block, hSize]
  induction count generalizing record with
  | zero => rfl
  | succ others ih =>
      rw [entries_succ, entries_succ, hEntry]
      congr 1
      funext updated
      exact ih updated

theorem records_congr {limits' : Limits} (hSize : limits.maxBlockSize = limits'.maxBlockSize)
    (count : Nat) (done : Array Record) : records limits count done = records limits' count done := by
  have hRecord : record limits = record limits' := by
    rw [record, record]
    congr 1
    funext count
    exact entries_congr hSize count {}
  induction count generalizing done with
  | zero => rfl
  | succ others ih =>
      rw [records_succ, records_succ, hRecord]
      congr 1
      funext next
      exact ih (done.push next)

/-- Whether bytes may be left does not matter to the batch at the front. -/
theorem leading_withTrailing (limits : Limits) (allow : Bool) :
    leading (limits.withTrailing allow) = leading limits := by
  have hSize : (limits.withTrailing allow).maxBlockSize = limits.maxBlockSize := rfl
  rw [leading, leading]
  congr 1
  funext count
  exact records_congr hSize count #[]

theorem decode_of_leading {data : Bytes} {result : List Record} {rest : Input}
    (h : leading limits (Input.ofBytes data) = .ok (result, rest))
    (hTail : rest.bytes = [] ∨ limits.allowTrailing) : decode limits data = .ok result := by
  have hGuard : ¬(rest.size ≠ 0 ∧ ¬limits.allowTrailing = true) := by
    rw [rest.size_eq]
    rcases hTail with hTail | hTail <;> simp [hTail]
  rw [decode, h]
  exact if_neg hGuard

theorem decode_of_leading_trailing {data : Bytes} {result : List Record} {rest : Input}
    (h : leading limits (Input.ofBytes data) = .ok (result, rest))
    (hTail : rest.bytes ≠ []) (hAllow : limits.allowTrailing = false) :
    decode limits data = .error ⟨⟨.batch, .trailingBytes rest.bytes.length⟩, none⟩ := by
  have hGuard : rest.size ≠ 0 ∧ ¬limits.allowTrailing = true := by
    rw [rest.size_eq]
    simp [hTail, hAllow]
  rw [← rest.size_eq, decode, h]
  exact if_pos hGuard

theorem decode_of_leading_error {data : Bytes} {error : DecodeError}
    (h : leading limits (Input.ofBytes data) = .error error) :
    decode limits data = .error error := by
  rw [decode, h]
  rfl

end Batch

end BlockFeed
