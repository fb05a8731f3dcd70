import BlockFeed.Proofs.Batch.Arrival
import BlockFeed.Proofs.Batch.RoundTrip

/-! Canonical encodings that are cut short. The cut is reported at the record in which it is, and within
the record at the field that it leaves incomplete. Only the header of a record looks ahead, and so takes the
blame for cuts in the first bytes behind it as well. -/

namespace BlockFeed

open MessagePack Reader

namespace Reader

variable {ε α : Type} {reader : Reader ε α} {Word : α → Bytes → Prop} {Tolerated : ε → Prop}

/-- A reader whose outcome only more bytes can change does not succeed on a part of its word. -/
theorem Reads.error_of_cut (hReads : Reads reader Word)
    (hStable : ∀ more, Stable more Tolerated reader) {value : α} {word : Bytes}
    (hWord : Word value word) {cut : Nat} (hCut : cut < word.length) :
    ∃ error, Tolerated error ∧ reader (Input.ofBytes (word.take cut)) = .error error := by
  have hWhole : reader (Input.ofBytes word) = .ok (value, Input.ofBytes []) :=
    hReads.ok hWord (List.append_nil word).symm
  have hExtends : Input.Extends (word.drop cut) (Input.ofBytes (word.take cut))
      (Input.ofBytes word) := (List.take_append_drop cut word).symm
  have hMatches := hStable _ _ _ hExtends
  rw [hWhole] at hMatches
  generalize hFront : reader (Input.ofBytes (word.take cut)) = outcome at hMatches
  cases hMatches with
  | tolerated hTolerated => exact ⟨_, hTolerated, rfl⟩
  | @ok _ rest _ hRest =>
      have hNil : [] = rest.bytes ++ word.drop cut := hRest
      have hLength := congrArg List.length hNil
      rw [List.length_append, List.length_drop, List.length_nil] at hLength
      omega

end Reader

namespace Batch

section Parts

variable {α : Type} {reader : Reader Fault α} {Word : α → Bytes → Prop} {value : α} {word : Bytes}
  {cut : Nat}

theorem reading_of_cut (field : Field) (hReads : Reads reader Word)
    (hStable : ∀ more, Stable more (· = .truncated) reader) (hWord : Word value word)
    (hCut : cut < word.length) (back : Bytes) :
    reading field reader (Input.ofBytes ((word ++ back).take cut)) =
      .error ⟨field, .fault .truncated⟩ := by
  obtain ⟨fault, rfl, hFault⟩ := hReads.error_of_cut hStable hWord hCut
  rw [List.take_append_of_le_length (Nat.le_of_lt hCut), reading, mapError, hFault]

theorem reading_of_whole (field : Field) (hReads : Reads reader Word) (hWord : Word value word)
    (hWhole : word.length ≤ cut) (back : Bytes) :
    reading field reader (Input.ofBytes ((word ++ back).take cut)) =
      .ok (value, Input.ofBytes (back.take (cut - word.length))) := by
  apply (reads_reading field hReads).ok hWord
  rw [Input.bytes_ofBytes, Input.bytes_ofBytes, List.take_append, List.take_of_length_le hWhole]

end Parts

/-- The field that is found incomplete where a written record is cut to its first bytes. The header is
only complete with the four bytes that two entries take at least. -/
def fieldAt (cut : Nat) : Field :=
  if cut < 5 then .record
  else if cut < 8 then .key
  else if cut < 17 then .height
  else if cut < 23 then .key
  else .block

/-- The bytes in front of a record in the encoding of its batch. -/
def recordStart (batch : List Record) (index : Nat) : Nat :=
  (arrayHeaderBytes batch.length ++ (batch.take index).flatMap recordBytes).length

variable {limits : Limits} {cut : Nat}

section Record

theorem entryCount_of_cut (hCut : cut < 5) (back : Bytes) :
    entryCount (Input.ofBytes (([Record.mapMarker.byte] ++ back).take cut)) =
      .error ⟨.record, .fault .truncated⟩ := by
  have hHeader : MapHeader 2 [Record.mapMarker.byte] := CountWord.short (by decide)
  by_cases hMarker : cut < 1
  · exact bind_error (reading_of_cut .record reads_mapHeader (fun _ => stable_header _ _) hHeader
      hMarker back)
  · have hRead := reading_of_whole .record reads_mapHeader hHeader (Nat.le_of_not_lt hMarker) back
    have hRoom : (Input.ofBytes (back.take (cut - 1))).size < Record.minEntrySize * 2 := by
      rw [Input.size_ofBytes, List.length_take, Record.minEntrySize]
      omega
    rw [entryCount, bind_ok hRead, bind_ok (show Reader.remaining _ = .ok (_, _) from rfl)]
    rw [List.length_singleton, if_pos hRoom]
    rfl

theorem entryCount_of_whole (hCut : 5 ≤ cut) {back : Bytes} (hBack : 4 ≤ back.length) :
    entryCount (Input.ofBytes (([Record.mapMarker.byte] ++ back).take cut)) =
      .ok (2, Input.ofBytes (back.take (cut - 1))) := by
  have hHeader : MapHeader 2 [Record.mapMarker.byte] := CountWord.short (by decide)
  refine (entryCount_eq_ok_iff _ _ _).mpr ⟨⟨_, hHeader, ?_⟩, ?_⟩
  · rw [Input.bytes_ofBytes, List.take_append, List.take_of_length_le (by simp; omega)]
    rfl
  · rw [Input.size_ofBytes, List.length_take, Record.minEntrySize]
    omega

theorem entry_of_cut_name {key token : Bytes} (hKey : KeyWord key token) (record : Record)
    (hCut : cut < token.length) (back : Bytes) :
    entry limits record (Input.ofBytes ((token ++ back).take cut)) =
      .error ⟨.key, .fault .truncated⟩ :=
  bind_error (reading_of_cut .key reads_text (fun _ => stable_text) hKey hCut back)

theorem entry_of_cut_height (value : Int64) (record : Record) (hName : 7 ≤ cut) (hCut : cut < 16)
    (back : Bytes) : entry limits record
      (Input.ofBytes ((Record.heightToken ++ (int64Bytes value ++ back)).take cut)) =
        .error ⟨.height, .fault .truncated⟩ := by
  have hValue : cut - Record.heightToken.length < (int64Bytes value).length := by
    rw [int64Bytes_length]
    exact Nat.sub_lt_left_of_lt_add hName hCut
  rw [entry, bind_ok (reading_of_whole .key reads_text Record.heightToken_word hName _), if_pos rfl]
  exact bind_error (reading_of_cut .height reads_int64 (fun _ => stable_int64) (int64Bytes_word value)
    hValue back)

theorem entry_of_whole_height (value : Int64) (record : Record) (hCut : 16 ≤ cut) (back : Bytes) :
    entry limits record
      (Input.ofBytes ((Record.heightToken ++ (int64Bytes value ++ back)).take cut)) =
        .ok ({ record with height := value }, Input.ofBytes (back.take (cut - 16))) := by
  refine (reads_entry limits record).ok ⟨.height value, ⟨Record.heightToken_word,
    .height (int64Bytes_word value)⟩, by simp [Entry.Within, Entry.block?], rfl⟩ ?_
  have hLength : (Record.heightToken ++ int64Bytes value).length = 16 := by
    rw [List.length_append, int64Bytes_length]
    rfl
  rw [Input.bytes_ofBytes, Input.bytes_ofBytes, ← List.append_assoc, List.take_append, hLength,
    List.take_of_length_le (hLength ▸ hCut)]

theorem block_of_cut {payload : Bytes} (hPayload : payload.length < Marker.countBound)
    (hLimit : payload.length ≤ limits.maxBlockSize.toNat) (hCut : cut < (blockBytes payload).length) :
    block limits (Input.ofBytes ((blockBytes payload).take cut)) =
      .error ⟨.block, .fault .truncated⟩ := by
  rw [blockBytes, List.length_append] at hCut
  rw [blockBytes]
  by_cases hHeader : cut < (binaryHeaderBytes payload.length).length
  · exact bind_error (reading_of_cut .block reads_binaryHeader (fun _ => stable_header _ _)
      (binaryHeaderBytes_word hPayload) hHeader payload)
  · have hRead := reading_of_whole .block reads_binaryHeader (binaryHeaderBytes_word hPayload)
      (Nat.le_of_not_lt hHeader) payload
    have hLeft : cut - (binaryHeaderBytes payload.length).length < payload.length := by omega
    have hWord : payload = payload ∧ payload.length = payload.length := ⟨rfl, rfl⟩
    have hBytes := reading_of_cut .block (reads_take .truncated payload.length)
      (fun _ => stable_take _) hWord hLeft []
    rw [List.append_nil] at hBytes
    rw [block, bind_ok hRead, if_neg (Nat.not_lt.mpr hLimit), hBytes]

theorem entry_of_cut_block {payload : Bytes} (hPayload : payload.length < Marker.countBound)
    (hLimit : payload.length ≤ limits.maxBlockSize.toNat) (record : Record) (hName : 6 ≤ cut)
    (hCut : cut < 6 + (blockBytes payload).length) :
    entry limits record (Input.ofBytes ((Record.blockToken ++ blockBytes payload).take cut)) =
      .error ⟨.block, .fault .truncated⟩ := by
  rw [entry, bind_ok (reading_of_whole .key reads_text Record.blockToken_word hName _),
    if_neg (by decide), if_pos rfl]
  exact bind_error (block_of_cut hPayload hLimit (Nat.sub_lt_left_of_lt_add hName hCut))

/-- A cut record is found incomplete at the field at which it is cut. -/
theorem record_of_cut {written : Record} (hBlock : written.block.length < Marker.countBound)
    (hLimit : written.block.length ≤ limits.maxBlockSize.toNat)
    (hCut : cut < (recordBytes written).length) :
    record limits (Input.ofBytes ((recordBytes written).take cut)) =
      .error ⟨fieldAt cut, .fault .truncated⟩ := by
  let atName := Record.blockToken ++ blockBytes written.block
  let atEntries := Record.heightToken ++ (int64Bytes written.height ++ atName)
  have hBytes : recordBytes written = [Record.mapMarker.byte] ++ atEntries := by
    simp [recordBytes, atEntries, atName]
  have hLength : (recordBytes written).length = 23 + (blockBytes written.block).length := by
    simp only [recordBytes, List.length_cons, List.length_append, int64Bytes_length]
    have hName : Record.heightToken.length = 7 ∧ Record.blockToken.length = 6 := by decide
    omega
  have hEntries : 4 ≤ atEntries.length := by
    simp only [atEntries, List.length_append, int64Bytes_length]
    omega
  rw [hBytes, record, fieldAt]
  by_cases hHeader : cut < 5
  · rw [if_pos hHeader]
    exact bind_error (entryCount_of_cut hHeader atEntries)
  rw [if_neg hHeader, bind_ok (entryCount_of_whole (Nat.le_of_not_lt hHeader) hEntries), entries_succ]
  by_cases hName : cut < 8
  · rw [if_pos hName]
    exact bind_error (entry_of_cut_name Record.heightToken_word {} (show cut - 1 < 7 by omega) _)
  rw [if_neg hName]
  by_cases hHeight : cut < 17
  · rw [if_pos hHeight]
    exact bind_error (entry_of_cut_height written.height {} (by omega) (by omega) atName)
  rw [if_neg hHeight, bind_ok (entry_of_whole_height written.height {} (by omega) atName), entries_succ,
    Nat.sub_sub]
  by_cases hSecond : cut < 23
  · rw [if_pos hSecond]
    exact bind_error (entry_of_cut_name Record.blockToken_word _ (show cut - 17 < 6 by omega) _)
  rw [if_neg hSecond]
  exact bind_error (entry_of_cut_block hBlock hLimit _ (by omega) (by omega))

end Record

section Batch

variable {batch : List Record}

theorem decode_of_cut_header (hBatch : Representable batch)
    (hCut : cut < (arrayHeaderBytes batch.length).length) :
    decode limits ((encode batch).take cut) = .error ⟨⟨.batch, .fault .truncated⟩, none⟩ := by
  have hRead := reading_of_cut .batch reads_arrayHeader (fun _ => stable_header _ _)
    (arrayHeaderBytes_word hBatch.1) hCut (batch.flatMap recordBytes)
  have hCount : recordCount limits (Input.ofBytes ((encode batch).take cut)) =
      .error ⟨.batch, .fault .truncated⟩ := bind_error hRead
  refine decode_of_leading_error (bind_error ?_)
  rw [mapError, hCount]

/-- The records in front of the cut are read, and the one in which it is fails by itself. -/
theorem decode_of_cut_record {before after : List Record} {written : Record}
    (hBatch : Representable (before ++ written :: after))
    (hCount : (before ++ written :: after).length ≤ limits.maxRecords.toNat)
    (hBlocks : ∀ record ∈ before ++ written :: after,
      record.block.length ≤ limits.maxBlockSize.toNat)
    (hCut : cut < (recordBytes written).length) :
    decode limits ((encode (before ++ written :: after)).take
      ((arrayHeaderBytes (before ++ written :: after).length ++
        before.flatMap recordBytes).length + cut)) =
      .error ⟨⟨fieldAt cut, .fault .truncated⟩, some before.length⟩ := by
  obtain ⟨hLength, hSizes⟩ := hBatch
  have hMem : written ∈ before ++ written :: after := List.mem_append_right _ List.mem_cons_self
  have hHeader := arrayHeaderBytes_word hLength
  have hBody : Words RecordWord (before.map Record.entries) (before.flatMap recordBytes) :=
    Words.flatMap _ _ _ fun record hRecord =>
      recordBytes_word (hSizes record (List.mem_append_left _ hRecord))
  have hWithin : ∀ list ∈ before.map Record.entries, ∀ entry ∈ list, entry.Within limits := by
    intro list hList
    obtain ⟨record, hRecord, rfl⟩ := List.mem_map.mp hList
    exact within_entries (hBlocks record (List.mem_append_left _ hRecord))
  have hError : record limits (Input.ofBytes ((recordBytes written).take cut)) =
      .error ⟨fieldAt cut, .fault .truncated⟩ :=
    record_of_cut (hSizes written hMem) (hBlocks written hMem) hCut
  have hInput : (encode (before ++ written :: after)).take
      ((arrayHeaderBytes (before ++ written :: after).length ++
        before.flatMap recordBytes).length + cut) =
      arrayHeaderBytes (before ++ written :: after).length ++
        (before.flatMap recordBytes ++ (recordBytes written).take cut) := by
    rw [encode, List.flatMap_append, List.flatMap_cons, ← List.append_assoc, List.take_length_add_append,
      List.take_append_of_le_length (Nat.le_of_lt hCut), List.append_assoc]
  rw [hInput]
  rw [List.length_append, List.length_cons, ← List.length_map Record.entries] at hHeader hCount ⊢
  exact decode_of_leading_error
    (leading_of_record_error hHeader hCount hBody hWithin rfl hError)

theorem exists_record_of_cut {list : List Record} (hCut : cut < (list.flatMap recordBytes).length) :
    ∃ before written after, list = before ++ written :: after ∧
      (before.flatMap recordBytes).length ≤ cut ∧
      cut < (before.flatMap recordBytes).length + (recordBytes written).length := by
  induction list generalizing cut with
  | nil => cases hCut
  | cons record list ih =>
      rw [List.flatMap_cons, List.length_append] at hCut
      by_cases hFirst : cut < (recordBytes record).length
      · exact ⟨[], record, list, rfl, Nat.zero_le _, by simpa using hFirst⟩
      · obtain ⟨before, written, after, rfl, hLower, hUpper⟩ :=
          @ih (cut - (recordBytes record).length) (by omega)
        refine ⟨record :: before, written, after, rfl, ?_, ?_⟩
        · rw [List.flatMap_cons, List.length_append]
          omega
        · rw [List.flatMap_cons, List.length_append]
          omega

theorem decode_of_cut_index (hBatch : Representable batch)
    (hCount : batch.length ≤ limits.maxRecords.toNat)
    (hBlocks : ∀ record ∈ batch, record.block.length ≤ limits.maxBlockSize.toNat) {i : Nat}
    (hIndex : i < batch.length) (hLower : recordStart batch i ≤ cut)
    (hUpper : cut < recordStart batch i + (recordBytes batch[i]).length) :
    decode limits ((encode batch).take cut) =
      .error ⟨⟨fieldAt (cut - recordStart batch i), .fault .truncated⟩, some i⟩ := by
  have hSplit : batch.take i ++ batch[i] :: batch.drop (i + 1) = batch := by
    rw [List.getElem_cons_drop, List.take_append_drop]
  have h := @decode_of_cut_record limits (cut - recordStart batch i) (batch.take i)
    (batch.drop (i + 1)) batch[i] (by rwa [hSplit]) (by rwa [hSplit]) (by rwa [hSplit]) (by omega)
  rw [hSplit, List.length_take, Nat.min_eq_left (Nat.le_of_lt hIndex), ← recordStart,
    Nat.add_sub_cancel' hLower] at h
  exact h

/-- A place behind the header of a batch is in one of its records. -/
theorem exists_index_of_cut (hLower : (arrayHeaderBytes batch.length).length ≤ cut)
    (hUpper : cut < (encode batch).length) : ∃ i, ∃ hIndex : i < batch.length,
      recordStart batch i ≤ cut ∧ cut < recordStart batch i + (recordBytes batch[i]).length := by
  rw [encode, List.length_append] at hUpper
  obtain ⟨before, written, after, rfl, hBefore, hWritten⟩ :=
    @exists_record_of_cut (cut - (arrayHeaderBytes batch.length).length) batch (by omega)
  have hStart : recordStart (before ++ written :: after) before.length =
      (arrayHeaderBytes (before ++ written :: after).length).length +
        (before.flatMap recordBytes).length := by
    rw [recordStart, List.take_left, List.length_append]
  have hIndex : before.length < (before ++ written :: after).length := by simp
  have hOwn : (before ++ written :: after)[before.length] = written := by simp
  refine ⟨before.length, hIndex, ?_⟩
  rw [hStart, hOwn]
  omega

/-- A canonical encoding that is cut short is reported as truncated exactly where it is cut. A cut in the
header of the batch is reported there and of no record. A cut in a record is reported of that record
and at the field that the cut leaves incomplete. There is no other place for it. -/
theorem decode_take_encode (limits : Limits) (batch : List Record) (hBatch : Representable batch)
    (hCount : batch.length ≤ limits.maxRecords.toNat)
    (hBlocks : ∀ record ∈ batch, record.block.length ≤ limits.maxBlockSize.toNat) (cut : Nat)
    (hCut : cut < (encode batch).length) :
    IsTruncated (decode limits ((encode batch).take cut)) ∧
    (cut < (arrayHeaderBytes batch.length).length →
      decode limits ((encode batch).take cut) = .error ⟨⟨.batch, .fault .truncated⟩, none⟩) ∧
    ∀ (i : Nat) (hIndex : i < batch.length), recordStart batch i ≤ cut →
      cut < recordStart batch i + (recordBytes batch[i]).length →
      decode limits ((encode batch).take cut) =
        .error ⟨⟨fieldAt (cut - recordStart batch i), .fault .truncated⟩, some i⟩ := by
  refine ⟨?_, fun hHeader => decode_of_cut_header hBatch hHeader, fun i hIndex hLower hUpper =>
    decode_of_cut_index hBatch hCount hBlocks hIndex hLower hUpper⟩
  by_cases hHeader : cut < (arrayHeaderBytes batch.length).length
  · exact ⟨_, decode_of_cut_header hBatch hHeader, rfl⟩
  · obtain ⟨i, hIndex, hLower, hUpper⟩ := exists_index_of_cut (Nat.le_of_not_lt hHeader) hCut
    exact ⟨_, decode_of_cut_index hBatch hCount hBlocks hIndex hLower hUpper, rfl⟩

/-- The second record is cut behind the marker of the name of its block. -/
theorem decode_take_encode_second_name :
    Representable [⟨-3, [0xde, 0xad]⟩, ⟨0, [1, 2, 3]⟩] ∧
      46 < (encode [⟨-3, [0xde, 0xad]⟩, ⟨0, [1, 2, 3]⟩]).length ∧
      recordStart [⟨-3, [0xde, 0xad]⟩, ⟨0, [1, 2, 3]⟩] 1 = 28 ∧
      decode ⟨2, 3, true⟩ ((encode [⟨-3, [0xde, 0xad]⟩, ⟨0, [1, 2, 3]⟩]).take 46) =
        .error ⟨⟨.key, .fault .truncated⟩, some 1⟩ := by
  have hBatch : Representable [⟨-3, [0xde, 0xad]⟩, ⟨0, [1, 2, 3]⟩] := by decide
  have hCut : 46 < (encode [⟨-3, [0xde, 0xad]⟩, ⟨0, [1, 2, 3]⟩]).length := by decide
  obtain ⟨-, -, hRecord⟩ := decode_take_encode ⟨2, 3, true⟩ _ hBatch (by decide) (by decide) 46 hCut
  exact ⟨hBatch, hCut, by decide, hRecord 1 (by decide) (by decide) (by decide)⟩

end Batch

end Batch

end BlockFeed
