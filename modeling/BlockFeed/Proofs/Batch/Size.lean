import BlockFeed.Batch.Encode
import BlockFeed.Batch.Size
import Mathlib.Algebra.Ring.Nat

/-! The size of an encoding is known before it is made. What the writers put out and what the sizes
count agree part by part, and the running total never passes the largest size. -/

namespace BlockFeed

open MessagePack

namespace MessagePack

theorem length_arrayHeaderBytes (count : Nat) :
    (arrayHeaderBytes count).length = Batch.headerSize count := by
  simp [arrayHeaderBytes, Batch.headerSize, Nat.add_comm]

theorem length_binaryHeaderBytes (length : Nat) :
    (binaryHeaderBytes length).length = Batch.blockHeaderSize length := by
  simp [binaryHeaderBytes, Batch.blockHeaderSize, Nat.add_comm]

end MessagePack

namespace Batch

theorem headerSize_eq (count : Nat) :
    headerSize count = if count ≤ 15 then 1 else if count ≤ 65535 then 3 else 5 := by
  have hWide : count < UInt16.size ↔ count ≤ 65535 := Nat.lt_succ_iff
  simp only [headerSize, Marker.arrayField, Marker.maxFixCount, hWide]
  by_cases hFix : count ≤ 15
  · simp [hFix, CountField.size]
  · by_cases hShort : count ≤ 65535 <;> simp [hFix, hShort, CountField.size]

theorem blockHeaderSize_eq (length : Nat) :
    blockHeaderSize length = if length ≤ 255 then 2 else if length ≤ 65535 then 3 else 5 := by
  have hByte : length < UInt8.size ↔ length ≤ 255 := Nat.lt_succ_iff
  have hWide : length < UInt16.size ↔ length ≤ 65535 := Nat.lt_succ_iff
  simp only [blockHeaderSize, Marker.binaryField, hByte, hWide]
  by_cases hNarrow : length ≤ 255
  · simp [hNarrow, CountField.size]
  · by_cases hShort : length ≤ 65535 <;> simp [hNarrow, hShort, CountField.size]

theorem length_blockBytes (block : Bytes) :
    (blockBytes block).length = blockHeaderSize block.length + block.length := by
  simp [blockBytes, length_binaryHeaderBytes]

theorem length_recordBytes (record : Record) :
    (recordBytes record).length = recordSize record.block.length := by
  simp only [recordBytes, List.length_cons, List.length_append, int64Bytes_length,
    length_blockBytes, recordSize, Record.fixedSize, Record.heightSize]
  omega

theorem length_encode (records : List Record) : (encode records).length =
    headerSize records.length + (records.map fun record => recordSize record.block.length).sum := by
  simp [encode, length_arrayHeaderBytes, List.length_flatMap, length_recordBytes]

/-- Additions that stop at a bound make up the sum, stopped at the bound. Where the total has reached
it no later addition moves it. -/
theorem foldl_min_add {α : Type} (bound : Nat) (size : α → Nat) (list : List α) {start : Nat}
    (hStart : start ≤ bound) : list.foldl (fun total item => min bound (total + size item)) start =
      min bound (start + (list.map size).sum) := by
  induction list generalizing start with
  | nil => simp [hStart]
  | cons item list ih =>
      rw [List.foldl_cons, ih (Nat.min_le_left _ _), List.map_cons, List.sum_cons]
      omega

theorem headerSize_le_maxSize (count : Nat) : headerSize count ≤ maxSize := by
  have hLarge : 5 ≤ maxSize := by decide
  rw [headerSize_eq]
  split
  · omega
  · split <;> omega

theorem sizeOfBlocks_eq (lengths : List Nat) : sizeOfBlocks lengths =
    min maxSize (headerSize lengths.length + (lengths.map recordSize).sum) :=
  foldl_min_add maxSize recordSize lengths (headerSize_le_maxSize lengths.length)

theorem encodedSize_eq (records : List Record) :
    encodedSize records = min maxSize (encode records).length := by
  simp [encodedSize, sizeOfBlocks_eq, length_encode, Function.comp_def]

theorem encodedSize_pos (records : List Record) : 0 < encodedSize records := by
  have hHeader : 0 < headerSize records.length := by
    rw [headerSize]
    omega
  have hLarge : 0 < maxSize := by decide
  rw [encodedSize_eq, length_encode]
  omega

theorem encodedSize_of_le {records : List Record} (h : (encode records).length ≤ maxSize) :
    encodedSize records = (encode records).length := by
  rw [encodedSize_eq, Nat.min_eq_right h]

theorem encode?_of_representable {records : List Record} (h : Representable records) :
    encode? records = some (encode records) :=
  if_pos h

theorem append?_of_representable {records : List Record} (h : Representable records)
    (buffer : Bytes) : append? buffer records = some (buffer ++ encode records) := by
  rw [append?, encode?_of_representable h, Option.map_some]

/-- The size of an encoding is exact. It is the sum of the header and of the fixed part, the header of
the block and the block of every record, or the largest size where the sum passes that. For a batch
that can be written it is the length of what is written, and so is what a buffer gains by the batch. -/
theorem encodedSize_exact (records : List Record) :
    encodedSize records = min (UInt64.size - 1)
      ((if records.length ≤ 15 then 1 else if records.length ≤ 65535 then 3 else 5) +
        (records.map fun record => 23 +
          (if record.block.length ≤ 255 then 2 else if record.block.length ≤ 65535 then 3 else 5) +
            record.block.length).sum) ∧
    (Representable records → ∃ bytes, encode? records = some bytes ∧
      encodedSize records = min (UInt64.size - 1) bytes.length ∧
      ∀ buffer, append? buffer records = some (buffer ++ bytes) ∧
        (bytes.length < UInt64.size →
          (buffer ++ bytes).length = buffer.length + encodedSize records)) := by
  have hFixed : Record.fixedSize = 23 := by decide
  constructor
  · simp only [encodedSize_eq, length_encode, headerSize_eq, recordSize, blockHeaderSize_eq, hFixed,
      maxSize]
  · intro hRecords
    refine ⟨encode records, encode?_of_representable hRecords, encodedSize_eq records, ?_⟩
    intro buffer
    refine ⟨append?_of_representable hRecords buffer, ?_⟩
    intro hFits
    rw [encodedSize_of_le (Nat.le_pred_of_lt hFits), List.length_append]

/-- Sixteen records, the fewest with a wide header, one of them with the shortest block that has a wide
header of its own. -/
theorem encodedSize_sixteen_records :
    Representable (⟨-1, List.replicate 256 7⟩ :: List.replicate 15 {}) ∧
      encodedSize (⟨-1, List.replicate 256 7⟩ :: List.replicate 15 {}) = 660 ∧
      ∃ whole, append? [0xc1] (⟨-1, List.replicate 256 7⟩ :: List.replicate 15 {}) = some whole ∧
        whole.length = 661 := by
  have hRecords : Representable (⟨-1, List.replicate 256 7⟩ :: List.replicate 15 {}) := by
    decide +kernel
  obtain ⟨hSum, hWritten⟩ := encodedSize_exact (⟨-1, List.replicate 256 7⟩ :: List.replicate 15 {})
  obtain ⟨bytes, -, hLength, hAppend⟩ := hWritten hRecords
  have hSize : encodedSize (⟨-1, List.replicate 256 7⟩ :: List.replicate 15 {}) = 660 :=
    hSum.trans (by decide +kernel)
  have hFits : bytes.length < UInt64.size := by
    rw [hSize] at hLength
    have hWords : UInt64.size = 18446744073709551616 := rfl
    omega
  obtain ⟨hWhole, hGain⟩ := hAppend [0xc1]
  exact ⟨hRecords, hSize, [0xc1] ++ bytes, hWhole, by rw [hGain hFits, hSize]; rfl⟩

end Batch

end BlockFeed
