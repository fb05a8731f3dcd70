import BlockFeed.Bitcoin.Summary
import BlockFeed.Proofs.Bitcoin.CompactSize
import BlockFeed.Proofs.Bitcoin.Header
import BlockFeed.Proofs.Hex

/-! What a serialized block has to start with: a header, and a number of transactions in its shortest form
that is not zero. What stands behind them is not looked at. -/

namespace BlockFeed.Bitcoin.Summary

open CompactSize (Opening)

/-- Why a block is refused, where one fault hides those that stand behind it. -/
inductive Refused (block : Bytes) : BlockError → Prop where
  | header (hSize : block.length < 80) : Refused block (.insufficientBytes .header)
  | noTransaction (hCount : block[80]? = some 0) : Refused block (.transactionCount 0)
  | countCut (hSize : 80 ≤ block.length) (hCount : CompactSize.Cut (block.drop 80)) :
      Refused block (.insufficientBytes .compactSize)
  | countOverlong (hSize : 80 ≤ block.length) (hCount : CompactSize.Overlong (block.drop 80)) :
      Refused block .overlongNumber

/-- A summary of a block says what the block starts with. -/
structure Describes (summary : Summary) (block : Bytes) : Prop where
  size : summary.size = block.length
  count : 0 < summary.txCount
  front : ∃ rest, block = summary.header.bytes ++ CompactSize.encode summary.txCount ++ rest

variable {block : Bytes} {header : Header}

theorem ofBlock_of_header_error {error : BlockError} (h : Header.ofBytes block = .error error) :
    ofBlock block = .error error := by
  rw [ofBlock, h]
  rfl

/-- Behind a header the number of transactions decides. -/
theorem ofBlock_of_header (h : Header.ofBytes block = .ok header) :
    ofBlock block = match CompactSize.decode (block.drop 80) with
      | .error error => .error error
      | .ok (txCount, _) => if txCount = 0 then .error (.transactionCount txCount)
          else .ok { header, txCount, size := block.length } := by
  rw [ofBlock, h]
  show (CompactSize.decode (block.drop 80) >>= _) = _
  cases CompactSize.decode (block.drop 80) <;> rfl

/-- Zero is a byte of its own. -/
theorem number_zero_iff : (Opening.number 0).Of (block.drop 80) ↔ block[80]? = some 0 := by
  have hZero : CompactSize.encode 0 = [0] := by decide
  rw [Opening.Of, hZero, List.singleton_prefix_iff_head?_eq_some, List.head?_drop]

theorem ofBlock_of_describes {summary : Summary} (h : summary.Describes block) :
    ofBlock block = .ok summary := by
  obtain ⟨hSize, hCount, rest, hBlock⟩ := h
  have hFront : summary.header.bytes <+: block := by
    rw [hBlock, List.append_assoc]
    exact List.prefix_append _ _
  have hBehind : block.drop 80 = CompactSize.encode summary.txCount ++ rest := by
    rw [hBlock, List.append_assoc]
    exact List.drop_left' summary.header.bytes_length
  rw [ofBlock_of_header (Header.ofBytes_eq_ok_iff.mpr hFront), hBehind, CompactSize.decode_number]
  dsimp only
  rw [if_neg (UInt64.pos_iff_ne_zero.mp hCount), ← hSize]

theorem ofBlock_of_refused {error : BlockError} (h : Refused block error) :
    ofBlock block = .error error := by
  cases h with
  | header hSize => exact ofBlock_of_header_error (Header.ofBytes_of_short hSize)
  | noTransaction hCount =>
      obtain ⟨hSize, -⟩ := List.getElem?_eq_some_iff.mp hCount
      obtain ⟨header, hHeader, -⟩ := Header.exists_of_size_le (Nat.le_of_lt hSize)
      rw [ofBlock_of_header hHeader, CompactSize.decode_of_opening (number_zero_iff.mpr hCount)]
      rfl
  | countCut hSize hCount =>
      obtain ⟨header, hHeader, -⟩ := Header.exists_of_size_le hSize
      rw [ofBlock_of_header hHeader, CompactSize.decode_of_cut hCount]
  | countOverlong hSize hCount =>
      obtain ⟨header, hHeader, -⟩ := Header.exists_of_size_le hSize
      rw [ofBlock_of_header hHeader, CompactSize.decode_of_overlong hCount]

/-- Every block is described by a summary or refused. -/
theorem described_or_refused (block : Bytes) :
    (∃ summary : Summary, summary.Describes block) ∨ ∃ error, Refused block error := by
  by_cases hShort : block.length < 80
  · exact Or.inr ⟨_, .header hShort⟩
  · have hSize : 80 ≤ block.length := Nat.le_of_not_lt hShort
    obtain ⟨header, -, hBytes⟩ := Header.exists_of_size_le hSize
    obtain ⟨opening, hOpening⟩ := CompactSize.exists_opening (block.drop 80)
    cases opening with
    | number count =>
        by_cases hZero : count = 0
        · subst hZero
          exact Or.inr ⟨_, .noTransaction (number_zero_iff.mp hOpening)⟩
        · obtain ⟨rest, hRest⟩ := hOpening
          refine Or.inl ⟨⟨header, count, block.length⟩, rfl, UInt64.pos_iff_ne_zero.mpr hZero, rest, ?_⟩
          show block = header.bytes ++ CompactSize.encode count ++ rest
          rw [hBytes, List.append_assoc, hRest]
          exact (List.take_append_drop 80 block).symm
    | cut => exact Or.inr ⟨_, .countCut hSize hOpening⟩
    | overlong => exact Or.inr ⟨_, .countOverlong hSize hOpening⟩

theorem ofBlock_eq_ok_iff {summary : Summary} :
    ofBlock block = .ok summary ↔ summary.Describes block := by
  refine ⟨fun h => ?_, ofBlock_of_describes⟩
  rcases described_or_refused block with ⟨own, hOwn⟩ | ⟨error, hError⟩
  · rw [ofBlock_of_describes hOwn] at h
    cases h
    exact hOwn
  · rw [ofBlock_of_refused hError] at h
    cases h

theorem ofBlock_eq_error_iff {error : BlockError} :
    ofBlock block = .error error ↔ Refused block error := by
  refine ⟨fun h => ?_, ofBlock_of_refused⟩
  rcases described_or_refused block with ⟨summary, hSummary⟩ | ⟨own, hOwn⟩
  · rw [ofBlock_of_describes hSummary] at h
    cases h
  · rw [ofBlock_of_refused hOwn] at h
    cases h
    exact hOwn

/-- The header of a summary has the first bytes of the block. -/
theorem Describes.take_eq {summary : Summary} (h : summary.Describes block) :
    block.take 80 = summary.header.bytes := by
  obtain ⟨rest, hBlock⟩ := h.front
  rw [hBlock, List.append_assoc]
  exact List.take_left' summary.header.bytes_length

/-- The name of a part that is missing tells whether it is the header. -/
theorem Refused.text_eq {part : BlockPart} (h : Refused block (.insufficientBytes part)) :
    part.text = if block.length < 80 then "block header" else "VarInt" := by
  cases h with
  | header hSize => exact (if_pos hSize).symm
  | countCut hSize hCount => exact (if_neg (Nat.not_lt.mpr hSize)).symm

/-- A block is summarized exactly when it starts with a header and a positive number of transactions in its
shortest form, whatever stands behind them, and is refused with one of four errors otherwise, of which
missing bytes are named after the part that they belong to. Its name is that of its own first 80 bytes:
their hash of the hash, last byte first, in hexadecimal of small letters. -/
theorem ofBlock_exact (block : Bytes) :
    (∀ summary, ofBlock block = .ok summary ↔ summary.Describes block) ∧
    (∀ error, ofBlock block = .error error ↔ Refused block error) ∧
    (∀ part, ofBlock block = .error (.insufficientBytes part) →
      part.text = if block.length < 80 then "block header" else "VarInt") ∧
    ∀ summary, ofBlock block = .ok summary →
      Bytes.IsHex summary.blockId (Sha256.digest (Sha256.digest (block.take 80))).reverse ∧
      summary.blockId = Bytes.hex (Sha256.digest (Sha256.digest (block.take 80))).reverse := by
  refine ⟨fun summary => ofBlock_eq_ok_iff, fun error => ofBlock_eq_error_iff, fun part h => ?_,
    fun summary h => ?_⟩
  · exact (ofBlock_eq_error_iff.mp h).text_eq
  · have hName : summary.blockId =
        Bytes.hex (Sha256.digest (Sha256.digest (block.take 80))).reverse := by
      rw [(ofBlock_eq_ok_iff.mp h).take_eq]
      rfl
    exact ⟨hName ▸ Bytes.isHex_hex _, hName⟩

end BlockFeed.Bitcoin.Summary
