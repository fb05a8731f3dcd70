import BlockFeed.Proofs.Batch.Limits
import BlockFeed.Proofs.Batch.RoundTrip
import Mathlib.Data.List.Basic

/-! The canonical form of a batch. Whatever layout a batch is read from, it can be written, the limits
that accept the one layout accept the other, and batches differ exactly when their canonical forms do. -/

namespace BlockFeed

open MessagePack Reader

namespace MessagePack

theorem CountWord.lt_of_capacity_le {base limit count bound : Nat} {wide : List (UInt8 × Nat)}
    {word : Bytes} (h : CountWord base limit wide count word) (hShort : limit ≤ bound)
    (hWide : ∀ entry ∈ wide, Bytes.capacity entry.2 ≤ bound) : count < bound := by
  cases h with
  | short hCount => exact Nat.lt_of_lt_of_le hCount hShort
  | wide hMarker hCount => exact Nat.lt_of_lt_of_le hCount (hWide _ hMarker)

theorem ArrayHeader.lt_countBound {count : Nat} {word : Bytes} (h : ArrayHeader count word) :
    count < Marker.countBound :=
  h.lt_of_capacity_le (by decide) (by decide)

theorem BinaryHeader.lt_countBound {length : Nat} {word : Bytes} (h : BinaryHeader length word) :
    length < Marker.countBound :=
  h.lt_of_capacity_le (by decide) (by decide)

end MessagePack

theorem EntryWord.block_lt_countBound {payload word : Bytes} (h : EntryWord (.block payload) word) :
    payload.length < Marker.countBound := by
  obtain ⟨-, hValue⟩ := h
  cases hValue with
  | block hWord =>
      obtain ⟨hHeader⟩ := hWord
      exact hHeader.lt_countBound

/-- No block is longer than a header is able to say. -/
theorem EntryWord.within_standard {entry : Entry} {word : Bytes} (h : EntryWord entry word) :
    entry.Within .standard := by
  intro payload hPayload
  cases entry with
  | block own =>
      cases hPayload
      exact Limits.le_standard_maxBlockSize h.block_lt_countBound
  | _ => cases hPayload

theorem RecordWord.within_standard {list : List Entry} {word : Bytes} (h : RecordWord list word) :
    ∀ entry ∈ list, entry.Within .standard := by
  obtain ⟨-, hBody⟩ := h
  intro entry hEntry
  obtain ⟨_, hWord⟩ := hBody.exists_of_mem hEntry
  exact hWord.within_standard

/-- No count or length of a batch that is read exceeds what the header in front of it gives. -/
theorem BatchWord.representable {batch : List (List Entry)} {word : Bytes} (h : BatchWord batch word) :
    Representable (batch.map Record.ofEntries) := by
  obtain ⟨hHeader, hRecords⟩ := h
  refine ⟨by simpa using hHeader.lt_countBound, fun record hRecord => ?_⟩
  obtain ⟨list, hList, rfl⟩ := List.mem_map.mp hRecord
  rcases Record.block_ofEntries_cases list with hNone | hBlock
  · rw [hNone]
    decide
  · obtain ⟨_, hWord⟩ := hRecords.exists_of_mem hList
    obtain ⟨-, hEntries⟩ := hWord
    obtain ⟨_, hEntry⟩ := hEntries.exists_of_mem hBlock
    exact hEntry.block_lt_countBound

namespace Batch

/-- The canonical form of the batch that a byte string holds. -/
def canonicalize (limits : Limits) (data : Bytes) : Option Bytes :=
  (decode limits data).toOption.bind encode?

variable {limits : Limits} {data : Bytes} {result : List Record}

theorem canonicalize_of_ok (hResult : Representable result) (h : decode limits data = .ok result) :
    canonicalize limits data = some (encode result) := by
  rw [canonicalize, h]
  exact if_pos hResult

theorem representable_of_ok (h : decode limits data = .ok result) : Representable result := by
  obtain ⟨rest, hLeading, -⟩ := decode_eq_ok_iff_leading.mp h
  obtain ⟨word, ⟨batch, hBatch, -, -, rfl⟩, -⟩ := (reads_leading limits _ _ _).mp hLeading
  exact hBatch.representable

/-- The limits that accept a batch in any layout accept its canonical form. -/
theorem decode_encode_of_ok (h : decode limits data = .ok result) :
    decode limits (encode result) = .ok result := by
  obtain ⟨hCount, hBlocks⟩ := within_of_ok h
  have hLeading := leading_encode (representable_of_ok h) hCount hBlocks []
  rw [List.append_nil] at hLeading
  exact decode_of_leading hLeading (Or.inl rfl)

theorem encode_inj_of_ok {limits' : Limits} {data' : Bytes} {result' : List Record}
    (h : decode limits data = .ok result) (h' : decode limits' data' = .ok result') :
    encode result = encode result' ↔ result = result' := by
  refine ⟨fun hSame => ?_, congrArg encode⟩
  have hFirst := decode_loosest_of_ok (decode_encode_of_ok h)
  have hSecond := decode_loosest_of_ok (decode_encode_of_ok h')
  rw [hSame, hSecond] at hFirst
  exact (Except.ok.inj hFirst).symm

/-- The canonical form of a batch is a normal form. A batch that is accepted can be written, the limits
that accepted it accept what is written and read the same records from it, and to write these again
changes nothing. Two batches have the same canonical form exactly when they have the same records. -/
theorem canonicalize_normal (h : decode limits data = .ok result) :
    Representable result ∧
    canonicalize limits data = some (encode result) ∧
    decode limits (encode result) = .ok result ∧
    canonicalize limits (encode result) = some (encode result) ∧
    ∀ limits' data' result', decode limits' data' = .ok result' →
      (canonicalize limits data = canonicalize limits' data' ↔ result = result') := by
  have hResult := representable_of_ok h
  have hAgain := decode_encode_of_ok h
  have hForm := canonicalize_of_ok hResult h
  refine ⟨hResult, hForm, hAgain, canonicalize_of_ok hResult hAgain, ?_⟩
  intro limits' data' result' h'
  rw [hForm, canonicalize_of_ok (representable_of_ok h') h', Option.some_inj]
  exact encode_inj_of_ok h h'

/-- A batch with wide headers, a compact height, a name as a binary payload, a nested value under an
unknown name and a block that is given twice, under limits beyond what a header declares. -/
theorem canonicalize_wide_layout :
    decode { maxRecords := 0x100000000, maxBlockSize := 0x100000000 }
        [0xdc, 0, 1, 0xde, 0, 4,
          0xc4, 5, 0x62, 0x6c, 0x6f, 0x63, 0x6b, 0xc4, 2, 7, 7,
          0xa1, 0x78, 0x92, 0xc0, 0x81, 1, 2,
          0xa6, 0x68, 0x65, 0x69, 0x67, 0x68, 0x74, 0xcc, 0x9c,
          0xa5, 0x62, 0x6c, 0x6f, 0x63, 0x6b, 0xc5, 0, 1, 0xc1] = .ok [⟨156, [0xc1]⟩] ∧
      decode { maxRecords := 0x100000000, maxBlockSize := 0x100000000 }
        (encode [⟨156, [0xc1]⟩]) = .ok [⟨156, [0xc1]⟩] :=
  (and_iff_left_of_imp fun h => (canonicalize_normal h).2.2.1).mpr (by decide +kernel)

end Batch

end BlockFeed
