import BlockFeed.Proofs.Frames
import BlockFeed.Proofs.Batch.Acceptance

/-! Blocks are views of the data. The blocks of a batch that is read stand one behind the other in the
data, and nothing else that is read depends on their bytes. The block of a record is the last one that
is written in it, so its place is found by taking the entries apart there. -/

namespace BlockFeed

open MessagePack Reader

/-- The same record with its block seen in other data. -/
def Record.viewedIn (data : Bytes) (start : Nat) (record : Record) : Record :=
  { record with block := data.slice start record.block.length }

/-- The blocks of the records stand at these places of the data, in order and apart. -/
structure Views (data : Bytes) (records : List Record) (start : Nat → Nat) : Prop where
  ordered : ∀ (i : Nat) (h : i + 1 < records.length),
    start i + records[i].block.length ≤ start (i + 1)
  inside : ∀ (i : Nat) (h : i < records.length), start i + records[i].block.length ≤ data.length
  block : ∀ (i : Nat) (h : i < records.length),
    records[i].block = data.slice (start i) records[i].block.length

/-- The position is in the view of some block. -/
def InView (records : List Record) (start : Nat → Nat) (position : Nat) : Prop :=
  ∃ (i : Nat) (h : i < records.length),
    start i ≤ position ∧ position < start i + records[i].block.length

/-- The frame is the record with its block left open, and a byte at least stands in front of that. -/
structure OpensBlock (limits : Limits) (record : Record) (frame : Frame) : Prop where
  size : record.block.length = frame.size
  front : 0 < frame.front.length
  refill : ∀ payload, frame.Fits payload → ∃ list, RecordWord list (frame.fill payload) ∧
    (∀ entry ∈ list, entry.Within limits) ∧ Record.ofEntries list = { record with block := payload }

variable {limits : Limits}

theorem EntryWord.exists_refill {payload word : Bytes} (h : EntryWord (.block payload) word) :
    ∃ front, word = front ++ payload ∧
      ∀ other, other.length = payload.length → EntryWord (.block other) (front ++ other) := by
  obtain @⟨key, name, value, hKey, hValue⟩ := h
  cases hValue with
  | block hWord =>
      obtain @⟨header, hHeader⟩ := hWord
      refine ⟨name ++ header, (List.append_assoc _ _ _).symm, fun other hLength => ?_⟩
      rw [List.append_assoc]
      exact ⟨hKey, .block ⟨hLength ▸ hHeader⟩⟩

theorem Entry.Within.of_length_eq {payload other : Bytes} (h : (Entry.block payload).Within limits)
    (hLength : other.length = payload.length) : (Entry.block other).Within limits := by
  rintro _ ⟨⟩
  rw [hLength]
  exact h payload rfl

namespace RecordWord

theorem exists_frame_of_last_block {before after : List Entry} {payload word : Bytes}
    (h : RecordWord (before ++ .block payload :: after) word)
    (hWithin : ∀ entry ∈ before ++ .block payload :: after, entry.Within limits)
    (hAfter : ∀ entry ∈ after, entry.block? = none) :
    ∃ frame, word = frame.fill payload ∧
      OpensBlock limits { Record.ofEntries (before ++ after) with block := payload } frame := by
  obtain @⟨header, body, hHeader, hBody⟩ := h
  obtain ⟨front, _, hFront, hRest, rfl⟩ := hBody.exists_of_append
  obtain _ | @⟨_, _, _, back, hBlock, hBack⟩ := hRest
  obtain ⟨name, rfl, hRefill⟩ := hBlock.exists_refill
  obtain ⟨hBefore, hOthers⟩ := List.forall_mem_append.mp hWithin
  obtain ⟨hOwn, hBehind⟩ := List.forall_mem_cons.mp hOthers
  have hPos := hHeader.length_pos
  refine ⟨⟨header ++ front ++ name, payload.length, back⟩, by simp [Frame.fill], rfl, ?_, ?_⟩
  · simp only [List.length_append]
    omega
  · intro other hFits
    have hCount : MapHeader (before ++ .block other :: after).length header := by simpa using hHeader
    have hWord := RecordWord.mk hCount (hFront.append (.cons (hRefill other hFits) hBack))
    refine ⟨before ++ .block other :: after, by simpa [Frame.fill] using hWord, ?_, ?_⟩
    · exact List.forall_mem_append.mpr
        ⟨hBefore, List.forall_mem_cons.mpr ⟨hOwn.of_length_eq hFits, hBehind⟩⟩
    · exact Record.ofEntries_of_last_block hAfter other

/-- The block of every record word can be left open. A record without a block has an empty one behind
everything else. -/
theorem exists_frame {list : List Entry} {word : Bytes} (h : RecordWord list word)
    (hWithin : ∀ entry ∈ list, entry.Within limits) :
    ∃ frame, word = frame.fill (Record.ofEntries list).block ∧
      OpensBlock limits (Record.ofEntries list) frame := by
  rcases Entry.last_block_or_none list with ⟨before, payload, after, rfl, hAfter⟩ | hNone
  · rw [Record.ofEntries_of_last_block hAfter]
    exact h.exists_frame_of_last_block hWithin hAfter
  · have hEmpty := Record.block_ofEntries_of_none hNone
    have hPos : 0 < word.length := by
      obtain ⟨hHeader, -⟩ := h
      have hPos := hHeader.length_pos
      rw [List.length_append]
      omega
    refine ⟨⟨word, 0, []⟩, by simp [Frame.fill, hEmpty], by rw [hEmpty]; rfl, hPos, ?_⟩
    intro payload hFits
    obtain rfl : payload = [] := List.eq_nil_of_length_eq_zero hFits
    exact ⟨list, by simpa [Frame.fill] using h, hWithin, by rw [← hEmpty]⟩

end RecordWord

theorem exists_frames {batch : List (List Entry)} {body : Bytes} (h : Words RecordWord batch body)
    (hWithin : ∀ list ∈ batch, ∀ entry ∈ list, entry.Within limits) :
    ∃ frames, body = Frame.fillAll frames (batch.map fun list => (Record.ofEntries list).block) ∧
      List.Forall₂ (OpensBlock limits) (batch.map Record.ofEntries) frames := by
  induction h with
  | nil => exact ⟨[], rfl, .nil⟩
  | cons hHead _ ih =>
      obtain ⟨hOwn, hOthers⟩ := List.forall_mem_cons.mp hWithin
      obtain ⟨frame, rfl, hOpens⟩ := hHead.exists_frame hOwn
      obtain ⟨frames, rfl, hFrames⟩ := ih hOthers
      exact ⟨frame :: frames, rfl, .cons hOpens hFrames⟩

section Frames

variable {records : List Record} {frames : List Frame}
  (hOpens : List.Forall₂ (OpensBlock limits) records frames)

include hOpens

theorem fits_blocks : List.Forall₂ Frame.Fits frames (records.map Record.block) := by
  induction hOpens with
  | nil => exact .nil
  | cons hHead _ ih => exact .cons hHead.size ih

/-- Open parts that are filled with anything give a batch again, with these blocks. -/
theorem exists_refilled {payloads : List Bytes} (hFits : List.Forall₂ Frame.Fits frames payloads) :
    ∃ batch, batch.length = records.length ∧ Words RecordWord batch (Frame.fillAll frames payloads) ∧
      (∀ list ∈ batch, ∀ entry ∈ list, entry.Within limits) ∧
      batch.map Record.ofEntries =
        List.zipWith (fun record payload => { record with block := payload }) records payloads := by
  induction hOpens generalizing payloads with
  | nil =>
      cases hFits
      exact ⟨[], rfl, .nil, by simp, rfl⟩
  | cons hHead _ ih =>
      obtain _ | ⟨hPayload, hPayloads⟩ := hFits
      obtain ⟨list, hWord, hOwn, hRecord⟩ := hHead.refill _ hPayload
      obtain ⟨batch, hLength, hWords, hOthers, hRecords⟩ := ih hPayloads
      refine ⟨list :: batch, congrArg Nat.succ hLength, .cons hWord hWords,
        List.forall_mem_cons.mpr ⟨hOwn, hOthers⟩, ?_⟩
      rw [List.map_cons, hRecord, hRecords, List.zipWith_cons_cons]

theorem front_pos : ∀ frame ∈ frames, 0 < frame.front.length := by
  induction hOpens with
  | nil => simp
  | cons hHead _ ih => exact List.forall_mem_cons.mpr ⟨hHead.front, ih⟩

theorem size_getElem {i : Nat} (hIndex : i < records.length) :
    ∃ hFrame : i < frames.length, records[i].block.length = frames[i].size := by
  have hFrame : i < frames.length := hOpens.length_eq ▸ hIndex
  exact ⟨hFrame, (hOpens.get hIndex hFrame).size⟩

theorem views_of_frames (header tail : Bytes) :
    Views (header ++ Frame.fillAll frames (records.map Record.block) ++ tail) records
      (fun i => header.length + Frame.start frames i) := by
  have hSplit : ∀ (i : Nat) (h : i < records.length), ∃ front back,
      header ++ Frame.fillAll frames (records.map Record.block) ++ tail =
        front ++ records[i].block ++ back ∧ front.length = header.length + Frame.start frames i := by
    intro i hIndex
    simpa using Frame.exists_split (fits_blocks hOpens) (show i < _ by simpa using hIndex) header tail
  refine ⟨fun i hIndex => ?_, fun i hIndex => ?_, fun i hIndex => ?_⟩
  · obtain ⟨hFrame, -⟩ := size_getElem hOpens hIndex
    obtain ⟨_, hSize⟩ := size_getElem hOpens (Nat.lt_of_succ_lt hIndex)
    have hOrder := Frame.start_add_size_le hFrame
    omega
  · obtain ⟨front, back, hData, hFront⟩ := hSplit i hIndex
    rw [hData, ← hFront, List.length_append, List.length_append]
    omega
  · obtain ⟨front, back, hData, hFront⟩ := hSplit i hIndex
    rw [hData, ← hFront, Bytes.slice_middle]

theorem open_of_inView {header : Bytes} {position : Nat}
    (h : InView records (fun i => header.length + Frame.start frames i) position) :
    ∃ rest, position = header.length + rest ∧ Frame.Open frames rest := by
  obtain ⟨i, hIndex, hLower, hUpper⟩ := h
  obtain ⟨hFrame, hSize⟩ := size_getElem hOpens hIndex
  dsimp only at hLower hUpper
  exact ⟨position - header.length, by omega, i, hFrame, by omega, by omega⟩

/-- Data that differs in the views only has the same frames, filled with other bytes. -/
theorem exists_payloads {header tail other : Bytes}
    (hAgrees : Bytes.AgreesExcept (InView records fun i => header.length + Frame.start frames i)
      (header ++ Frame.fillAll frames (records.map Record.block) ++ tail) other) :
    ∃ payloads, List.Forall₂ Frame.Fits frames payloads ∧
      other = header ++ Frame.fillAll frames payloads ++ tail := by
  rw [List.append_assoc] at hAgrees
  obtain ⟨_, rfl, hBehind⟩ := hAgrees.exists_append_of_visible fun position hPosition hView => by
    obtain ⟨rest, rfl, -⟩ := open_of_inView hOpens hView
    omega
  have hFrames := hBehind.mono fun position hView => by
    obtain ⟨rest, hRest, hOpen⟩ := open_of_inView hOpens hView
    obtain rfl : position = rest := Nat.add_left_cancel hRest
    exact hOpen
  obtain ⟨payloads, hFits, rfl⟩ := Frame.exists_fillAll (fits_blocks hOpens) hFrames
  exact ⟨payloads, hFits, (List.append_assoc _ _ _).symm⟩

theorem zipWith_eq_viewedIn {payloads : List Bytes}
    (hFits : List.Forall₂ Frame.Fits frames payloads) (header tail : Bytes) :
    List.zipWith (fun record payload => { record with block := payload }) records payloads =
      records.mapIdx fun i record => record.viewedIn
        (header ++ Frame.fillAll frames payloads ++ tail) (header.length + Frame.start frames i) := by
  have hLength : payloads.length = records.length := (hOpens.length_eq.trans hFits.length_eq).symm
  refine List.ext_getElem (by simp [hLength]) fun i hLeft hRight => ?_
  have hIndex : i < records.length := by simpa using hRight
  have hPayload : i < payloads.length := hLength ▸ hIndex
  obtain ⟨hFrame, hSize⟩ := size_getElem hOpens hIndex
  have hOwn : payloads[i].length = records[i].block.length := (hFits.get hFrame hPayload).trans hSize.symm
  obtain ⟨front, back, hData, hFront⟩ := Frame.exists_split hFits hPayload header tail
  have hSlice : Bytes.slice (header ++ Frame.fillAll frames payloads ++ tail)
      (header.length + Frame.start frames i) records[i].block.length = payloads[i] := by
    rw [hData, ← hFront, ← hOwn, Bytes.slice_middle]
  rw [List.getElem_zipWith, List.getElem_mapIdx, Record.viewedIn, hSlice]

end Frames

namespace Batch

/-- Blocks are views of the data. They stand in it in order and apart, behind a byte for the batch and
one for each record, so they are never longer than the data. Whatever other bytes stand in the views,
the data is a batch of as many records with the same heights and with those bytes for blocks. -/
theorem decode_views {data : Bytes} {result : List Record} (h : decode limits data = .ok result) :
    ∃ start, Views data result start ∧
      1 + result.length + (result.map fun record => record.block.length).sum ≤ data.length ∧
      ∀ other, Bytes.AgreesExcept (InView result start) data other →
        decode limits other = .ok (result.mapIdx fun i record => record.viewedIn other (start i)) := by
  obtain ⟨rest, hLeading, hTail⟩ := decode_eq_ok_iff_leading.mp h
  obtain ⟨word, ⟨batch, hBatch, hCount, hWithin, rfl⟩, hData⟩ := (reads_leading limits _ _ _).mp hLeading
  obtain @⟨header, body, hHeader, hBody⟩ := hBatch
  obtain ⟨frames, hFrames, hOpens⟩ := exists_frames hBody hWithin
  have hBlocks : batch.map (fun list => (Record.ofEntries list).block) =
      (batch.map Record.ofEntries).map Record.block := (List.map_map).symm
  rw [Input.bytes_ofBytes, hFrames, hBlocks] at hData
  refine ⟨fun i => header.length + Frame.start frames i, ?_, ?_, fun other hAgrees => ?_⟩
  · rw [hData]
    exact views_of_frames hOpens header rest.bytes
  · have hHeaderPos := hHeader.length_pos
    have hLength := Frame.length_add_sum_le (fits_blocks hOpens) (front_pos hOpens)
    rw [List.length_map, List.map_map] at hLength
    rw [hData, List.length_append, List.length_append]
    simp only [Function.comp_def] at hLength
    omega
  · rw [hData] at hAgrees
    obtain ⟨payloads, hFits, rfl⟩ := exists_payloads hOpens hAgrees
    obtain ⟨refilled, hLength, hWords, hOthers, hRecords⟩ := exists_refilled hOpens hFits
    have hSame : refilled.length = batch.length := hLength.trans (List.length_map _)
    have hWord : BatchWord refilled (header ++ Frame.fillAll frames payloads) :=
      ⟨by rwa [hSame], hWords⟩
    rw [← zipWith_eq_viewedIn hOpens hFits, ← hRecords]
    exact decode_of_leading ((reads_leading limits).ok
      ⟨refilled, hWord, by rwa [hSame], hOthers, rfl⟩ rfl) hTail

/-- The block is a byte that starts no value and one that starts a name. Other bytes in their place are
the block of the same batch. -/
theorem decode_views_marker_bytes :
    decode .standard [0x91, 0x82, 0xa6, 0x68, 0x65, 0x69, 0x67, 0x68, 0x74, 42,
        0xa5, 0x62, 0x6c, 0x6f, 0x63, 0x6b, 0xc4, 2, 0xc1, 0xa5] = .ok [⟨42, [0xc1, 0xa5]⟩] ∧
      decode .standard [0x91, 0x82, 0xa6, 0x68, 0x65, 0x69, 0x67, 0x68, 0x74, 42,
        0xa5, 0x62, 0x6c, 0x6f, 0x63, 0x6b, 0xc4, 2, 0x80, 0xff] = .ok [⟨42, [0x80, 0xff]⟩] := by
  refine (and_iff_left_of_imp fun h => ?_).mpr (by decide +kernel)
  obtain ⟨start, hViews, -, hOther⟩ := decode_views h
  have hInside : start 0 < 19 := Nat.lt_succ_of_le (Nat.le_of_add_le_add_right (hViews.inside 0 (by decide)))
  have hBlock := hViews.block 0 (by decide)
  -- The two bytes stand nowhere else in the data.
  have hStart : start 0 = 18 := by
    revert hInside hBlock
    generalize start 0 = place
    revert place
    decide
  refine (hOther _ ⟨by rfl, fun position hHidden => ?_⟩).trans ?_
  · rcases Nat.lt_or_ge position 18 with hBefore | hBehind
    · clear hHidden
      revert position
      decide
    · have hPast : 20 ≤ position := by
        by_contra hShort
        exact hHidden ⟨0, by decide, hStart ▸ hBehind, by rw [hStart]; exact Nat.lt_of_not_le hShort⟩
      rw [List.getElem?_eq_none hPast, List.getElem?_eq_none hPast]
  · show Except.ok [Record.viewedIn _ (start 0) _] = _
    rw [hStart]
    rfl

end Batch

end BlockFeed
