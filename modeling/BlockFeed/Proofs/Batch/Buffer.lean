import BlockFeed.Proofs.Batch.RoundTrip
import BlockFeed.Proofs.Batch.Size

/-! Batches one behind the other in a buffer. Each is appended behind what is there, and whoever reads
a batch from the front and drops as many bytes as its encoding has finds the next one. -/

namespace BlockFeed.Batch

open MessagePack Reader

variable {limits : Limits} {batch : List Record} {batches : List (List Record)}

theorem decode_nil (limits : Limits) :
    decode limits [] = .error ⟨⟨.batch, .fault .truncated⟩, none⟩ := rfl

/-- What is dropped behind a batch is never nothing. -/
theorem length_drop_encodedSize_lt {buffer : Bytes} (h : decode limits buffer = .ok batch) :
    (buffer.drop (encodedSize batch)).length < buffer.length := by
  have hSize := encodedSize_pos batch
  cases buffer with
  | nil =>
      rw [decode_nil] at h
      cases h
  | cons byte rest =>
      rw [List.length_drop, List.length_cons]
      omega

/-- Reads batches from the front of a buffer for as long as one is found, and drops behind each the
number of bytes of its encoding. Answers the batches and what is left of the buffer. -/
def drain (buffer : Bytes) : List (List Record) × Bytes :=
  match _hAccepted : decode (Limits.standard.withTrailing true) buffer with
  | .error _ => ([], buffer)
  | .ok batch =>
      let others := drain (buffer.drop (encodedSize batch))
      (batch :: others.1, others.2)
termination_by buffer.length
decreasing_by exact length_drop_encodedSize_lt _hAccepted

theorem drain_of_error {buffer : Bytes} {error : DecodeError}
    (h : decode (Limits.standard.withTrailing true) buffer = .error error) :
    drain buffer = ([], buffer) := by
  rw [drain]
  split
  · rfl
  · next hOk =>
      rw [h] at hOk
      cases hOk

theorem drain_of_ok {buffer : Bytes}
    (h : decode (Limits.standard.withTrailing true) buffer = .ok batch) :
    drain buffer = (batch :: (drain (buffer.drop (encodedSize batch))).1,
      (drain (buffer.drop (encodedSize batch))).2) := by
  rw [drain]
  split
  · next hError =>
      rw [h] at hError
      cases hError
  · next own hOk =>
      rw [h] at hOk
      cases hOk
      rfl

/-- The first batch of a buffer is read, and what is dropped is its encoding and no more. -/
theorem drain_encode_append (hBatch : Representable batch)
    (hSize : (encode batch).length ≤ maxSize) (tail : Bytes) :
    drain (encode batch ++ tail) = (batch :: (drain tail).1, (drain tail).2) := by
  have hLeading := leading_standard_encode hBatch tail
  rw [← leading_withTrailing .standard true] at hLeading
  have hOk : decode (Limits.standard.withTrailing true) (encode batch ++ tail) = .ok batch :=
    decode_of_leading hLeading (Or.inr rfl)
  rw [drain_of_ok hOk, encodedSize_of_le hSize, List.drop_left]

theorem drain_flatMap_encode (hBatches : ∀ batch ∈ batches, Representable batch)
    (hSize : (batches.flatMap encode).length ≤ maxSize) :
    drain (batches.flatMap encode) = (batches, []) := by
  induction batches with
  | nil => exact drain_of_error (decode_nil _)
  | cons batch batches ih =>
      obtain ⟨hBatch, hOthers⟩ := List.forall_mem_cons.mp hBatches
      rw [List.flatMap_cons, List.length_append] at hSize
      rw [List.flatMap_cons, drain_encode_append hBatch (by omega), ih hOthers (by omega)]

theorem foldlM_append? (hBatches : ∀ batch ∈ batches, Representable batch) (buffer : Bytes) :
    batches.foldlM append? buffer = some (buffer ++ batches.flatMap encode) := by
  induction batches generalizing buffer with
  | nil => simp
  | cons batch batches ih =>
      obtain ⟨hBatch, hOthers⟩ := List.forall_mem_cons.mp hBatches
      rw [List.foldlM_cons, append?_of_representable hBatch]
      simp [ih hOthers]

/-- An encoding is told from what stands behind it. -/
theorem encode_append_inj {batch' : List Record} {tail tail' : Bytes}
    (hBatch : Representable batch) (hBatch' : Representable batch')
    (h : encode batch ++ tail = encode batch' ++ tail') : batch = batch' ∧ tail = tail' := by
  have hFirst := leading_standard_encode hBatch tail
  rw [h, leading_standard_encode hBatch' tail'] at hFirst
  cases hFirst
  exact ⟨rfl, rfl⟩

/-- Batches that are appended to one buffer are recovered from it without loss, in their order and with
nothing left, as long as the buffer is not larger than the largest size. Hence an encoding and what
stands behind it are settled by their concatenation. -/
theorem drain_appended (buffer : Bytes) (hBatches : ∀ batch ∈ batches, Representable batch)
    (hSize : (buffer ++ batches.flatMap encode).length ≤ maxSize) :
    batches.foldlM append? buffer = some (buffer ++ batches.flatMap encode) ∧
    drain ((buffer ++ batches.flatMap encode).drop buffer.length) = (batches, []) ∧
    ∀ first second front back, Representable first → Representable second →
      encode first ++ front = encode second ++ back → first = second ∧ front = back := by
  refine ⟨foldlM_append? hBatches buffer, ?_, ?_⟩
  · rw [List.length_append] at hSize
    rw [List.drop_left]
    exact drain_flatMap_encode hBatches (by omega)
  · intro first second front back hFirst hSecond hSame
    exact encode_append_inj hFirst hSecond hSame

/-- Three batches behind a byte, the second of them empty and the block of the first one a marker. -/
theorem drain_appended_three :
    (∀ batch ∈ [[⟨-1, [0x90]⟩], [], [{}, ⟨5, []⟩]], Representable batch) ∧
      ([0xc1] ++ List.flatMap encode [[⟨-1, [0x90]⟩], [], [{}, ⟨5, []⟩]]).length ≤ maxSize ∧
      drain (([0xc1] ++ List.flatMap encode [[⟨-1, [0x90]⟩], [], [{}, ⟨5, []⟩]]).drop 1) =
        ([[⟨-1, [0x90]⟩], [], [{}, ⟨5, []⟩]], []) := by
  have hBatches : ∀ batch ∈ [[⟨-1, [0x90]⟩], [], [{}, ⟨5, []⟩]], Representable batch := by decide
  have hSize : ([0xc1] ++ List.flatMap encode [[⟨-1, [0x90]⟩], [], [{}, ⟨5, []⟩]]).length ≤ maxSize := by
    decide
  exact ⟨hBatches, hSize, (drain_appended [0xc1] hBatches hSize).2.1⟩

end BlockFeed.Batch
