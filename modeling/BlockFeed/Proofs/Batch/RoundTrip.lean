import BlockFeed.Proofs.Batch.Acceptance
import BlockFeed.Batch.Encode

/-! The canonical encoding is a word of the grammar, and reading it back, under any limits and with
anything behind it, gives the batch or the first limit that it exceeds. -/

namespace BlockFeed

open MessagePack Reader

namespace MessagePack

theorem arrayHeaderBytes_word {count : Nat} (hCount : count < Marker.countBound) :
    ArrayHeader count (arrayHeaderBytes count) :=
  (arrayCount?_tabulates.carried_iff _ _).mp ⟨_, _, Marker.arrayCount?_forArray count,
    Marker.arrayField_carries hCount, rfl⟩

theorem binaryHeaderBytes_word {length : Nat} (hLength : length < Marker.countBound) :
    BinaryHeader length (binaryHeaderBytes length) :=
  (binaryLength?_tabulates.carried_iff _ _).mp ⟨_, _, Marker.binaryLength?_forBinary length,
    Marker.binaryField_carries hLength, rfl⟩

/-- The unsigned reading of a signed 64-bit number is its two's complement. -/
theorem toUInt64_toNat (value : Int64) :
    value.toUInt64.toNat = (value.toInt % Bytes.capacity 8).toNat := by
  have hCapacity : Bytes.capacity 8 = 2 ^ 64 := by decide
  have hBound : value.toUInt64.toNat < 2 ^ 64 := value.toUInt64.toNat_lt
  rw [hCapacity, ← Int64.toInt_toBitVec, BitVec.toInt_eq_toNat_bmod, Int.bmod_emod,
    Int64.toNat_toBitVec]
  omega

theorem int64Bytes_word (value : Int64) : IntegerWord value.toInt (int64Bytes value) := by
  rw [int64Bytes, toUInt64_toNat]
  have hCapacity : Bytes.capacity 8 = 2 ^ 64 := by decide
  have hLower := value.le_toInt
  have hUpper := value.toInt_lt
  exact IntegerWord.signed (by decide) (by omega) (by omega)

end MessagePack

namespace Record

/-- The entries that a record is written with. -/
def entries (record : Record) : List Entry := [.height record.height, .block record.block]

theorem heightToken_word : KeyWord heightKey heightToken :=
  KeyWord.string (CountWord.short (by decide))

theorem blockToken_word : KeyWord blockKey blockToken :=
  KeyWord.string (CountWord.short (by decide))

theorem mapMarker_word (record : Record) : MapHeader record.entries.length [mapMarker.byte] :=
  CountWord.short (show 2 < 16 by decide)

end Record

section Standard

variable {number : Nat} (hNumber : number < Marker.countBound)

include hNumber

/-- A count that a header is able to give is within the standard limits. -/
theorem Limits.le_standard_maxRecords : number ≤ Limits.standard.maxRecords.toNat := by
  have hRecords : Limits.standard.maxRecords.toNat = Marker.countBound - 1 := by decide
  rw [hRecords]
  exact Nat.le_sub_one_of_lt hNumber

/-- A length that a header is able to give is within the standard limits. -/
theorem Limits.le_standard_maxBlockSize : number ≤ Limits.standard.maxBlockSize.toNat := by
  have hSize : Limits.standard.maxBlockSize.toNat = Marker.countBound - 1 := by decide
  rw [hSize]
  exact Nat.le_sub_one_of_lt hNumber

end Standard

namespace Batch

theorem blockEntry_word {payload : Bytes} (hPayload : payload.length < Marker.countBound) :
    EntryWord (.block payload) (Record.blockToken ++ blockBytes payload) :=
  ⟨Record.blockToken_word, .block ⟨binaryHeaderBytes_word hPayload⟩⟩

theorem recordBytes_word {record : Record} (hBlock : record.block.length < Marker.countBound) :
    RecordWord record.entries (recordBytes record) := by
  have hHeight : EntryWord (.height record.height) (Record.heightToken ++ int64Bytes record.height) :=
    ⟨Record.heightToken_word, .height (int64Bytes_word record.height)⟩
  have hWords : Words EntryWord record.entries (Record.heightToken ++ int64Bytes record.height ++
      (Record.blockToken ++ blockBytes record.block ++ [])) :=
    .cons hHeight (.cons (blockEntry_word hBlock) .nil)
  rw [List.append_nil, ← List.append_assoc] at hWords
  exact ⟨record.mapMarker_word, hWords⟩

theorem encode_header_word {batch : List Record} (hBatch : Representable batch) :
    ArrayHeader (batch.map Record.entries).length (arrayHeaderBytes batch.length) := by
  rw [List.length_map]
  exact arrayHeaderBytes_word hBatch.1

theorem encode_word {batch : List Record} (hBatch : Representable batch) :
    BatchWord (batch.map Record.entries) (encode batch) := by
  have hHeader := encode_header_word hBatch
  exact ⟨hHeader, Words.flatMap _ _ _ fun record hRecord => recordBytes_word (hBatch.2 record hRecord)⟩

theorem within_entries {limits : Limits} {record : Record}
    (h : record.block.length ≤ limits.maxBlockSize.toNat) :
    ∀ entry ∈ record.entries, entry.Within limits := by
  intro entry hEntry payload hPayload
  simp only [Record.entries, List.mem_cons, List.not_mem_nil, or_false] at hEntry
  rcases hEntry with rfl | rfl
  · cases hPayload
  · cases hPayload
    exact h

variable {limits : Limits} {input rest : Input}

theorem recordCount_of_many {count : Nat} {header : Bytes} (hHeader : ArrayHeader count header)
    (hMany : limits.maxRecords.toNat < count) (hInput : input.bytes = header ++ rest.bytes) :
    recordCount limits input =
      .error ⟨.batch, .tooManyRecords count limits.maxRecords.toNat⟩ := by
  rw [recordCount, bind_ok ((reads_reading .batch reads_arrayHeader).ok hHeader hInput), if_pos hMany]
  rfl

theorem block_of_long {length : Nat} {header : Bytes} (hHeader : BinaryHeader length header)
    (hLong : limits.maxBlockSize.toNat < length) (hInput : input.bytes = header ++ rest.bytes) :
    block limits input = .error ⟨.block, .payloadTooLong length limits.maxBlockSize.toNat⟩ := by
  rw [block, bind_ok ((reads_reading .block reads_binaryHeader).ok hHeader hInput), if_pos hLong]
  rfl

theorem entry_of_block_error {record : Record} {key : Bytes} {error : FieldError}
    (hKey : KeyWord Record.blockKey key) (hInput : input.bytes = key ++ rest.bytes)
    (hError : block limits rest = .error error) : entry limits record input = .error error := by
  rw [entry, bind_ok ((reads_reading .key reads_text).ok hKey hInput), if_neg (by decide),
    if_pos rfl, bind_error hError]

/-- A written record with too long a block is refused at its block, whatever stands behind it. -/
theorem record_of_long {written : Record} (hBlock : written.block.length < Marker.countBound)
    (hLong : limits.maxBlockSize.toNat < written.block.length)
    (hInput : input.bytes = recordBytes written ++ rest.bytes) :
    record limits input =
      .error ⟨.block, .payloadTooLong written.block.length limits.maxBlockSize.toNat⟩ := by
  let atBlock := Input.ofBytes (blockBytes written.block ++ rest.bytes)
  let atName := Input.ofBytes (Record.blockToken ++ atBlock.bytes)
  let atEntries := Input.ofBytes (Record.heightToken ++ int64Bytes written.height ++ atName.bytes)
  have hHeader : MapHeader 2 [Record.mapMarker.byte] := CountWord.short (by decide)
  have hCount : entryCount input = .ok (2, atEntries) := by
    refine (entryCount_eq_ok_iff _ _ _).mpr ⟨⟨_, hHeader, ?_⟩, ?_⟩
    · simpa [atEntries, atName, atBlock, recordBytes] using hInput
    · simp only [atEntries, Input.size_ofBytes, List.length_append, int64Bytes_length,
        Record.minEntrySize]
      omega
  have hHeight : entry limits {} atEntries = .ok ({ height := written.height }, atName) :=
    (reads_entry limits {}).ok ⟨.height written.height,
      ⟨Record.heightToken_word, .height (int64Bytes_word written.height)⟩, by
        simp [Entry.Within, Entry.block?], rfl⟩ rfl
  have hName : entry limits { height := written.height } atName =
      .error ⟨.block, .payloadTooLong written.block.length limits.maxBlockSize.toNat⟩ := by
    have hBytes : atBlock.bytes = binaryHeaderBytes written.block.length ++
        (Input.ofBytes (written.block ++ rest.bytes)).bytes := by simp [atBlock, blockBytes]
    exact entry_of_block_error Record.blockToken_word rfl
      (block_of_long (binaryHeaderBytes_word hBlock) hLong hBytes)
  rw [record, bind_ok hCount, entries_succ, bind_ok hHeight, entries_succ, bind_error hName]

/-- The first record that is not read is the one that the error names. -/
theorem leading_of_record_error {before : List (List Entry)} {others : Nat} {header body : Bytes}
    {error : FieldError} (hHeader : ArrayHeader (before.length + (others + 1)) header)
    (hCount : before.length + (others + 1) ≤ limits.maxRecords.toNat)
    (hBody : Words RecordWord before body)
    (hWithin : ∀ list ∈ before, ∀ entry ∈ list, entry.Within limits)
    (hInput : input.bytes = header ++ (body ++ rest.bytes))
    (hError : record limits rest = .error error) :
    leading limits input = .error ⟨error, some before.length⟩ := by
  let atBody := Input.ofBytes (body ++ rest.bytes)
  have hBefore : records limits before.length #[] atBody =
      .ok (before.map Record.ofEntries, rest) :=
    (reads_records limits _ #[]).ok ⟨before, rfl, hBody, hWithin, rfl⟩ rfl
  have hRecord : (record limits).mapError
      (fun error => DecodeError.mk error (some before.length)) rest =
      .error ⟨error, some before.length⟩ := by
    rw [mapError, hError]
  rw [leading_of_header hHeader hCount (show input.bytes = header ++ atBody.bytes from hInput),
    records_add, bind_ok hBefore, records_succ]
  refine bind_error ?_
  simpa using hRecord

variable {batch : List Record}

theorem decode_encode_of_many (hBatch : Representable batch)
    (hMany : limits.maxRecords.toNat < batch.length) (tail : Bytes) :
    decode limits (encode batch ++ tail) =
      .error ⟨⟨.batch, .tooManyRecords batch.length limits.maxRecords.toNat⟩, none⟩ := by
  have hInput : (Input.ofBytes (encode batch ++ tail)).bytes = arrayHeaderBytes batch.length ++
      (Input.ofBytes (batch.flatMap recordBytes ++ tail)).bytes := by simp [encode]
  have hCount := recordCount_of_many (arrayHeaderBytes_word hBatch.1) hMany hInput
  refine decode_of_leading_error (bind_error ?_)
  rw [mapError, hCount]

/-- The block that is too long may be anywhere, as long as none before it is. -/
theorem decode_encode_of_long {before after : List Record} {long : Record}
    (hBatch : Representable (before ++ long :: after))
    (hCount : (before ++ long :: after).length ≤ limits.maxRecords.toNat)
    (hBefore : ∀ record ∈ before, record.block.length ≤ limits.maxBlockSize.toNat)
    (hLong : limits.maxBlockSize.toNat < long.block.length) (tail : Bytes) :
    decode limits (encode (before ++ long :: after) ++ tail) = .error
      ⟨⟨.block, .payloadTooLong long.block.length limits.maxBlockSize.toNat⟩, some before.length⟩ := by
  obtain ⟨hLength, hBlocks⟩ := hBatch
  have hHeader := arrayHeaderBytes_word hLength
  rw [List.length_append, List.length_cons] at hHeader hCount
  have hBody : Words RecordWord (before.map Record.entries) (before.flatMap recordBytes) :=
    Words.flatMap _ _ _ fun record hRecord =>
      recordBytes_word (hBlocks record (List.mem_append_left _ hRecord))
  have hWithin : ∀ list ∈ before.map Record.entries, ∀ entry ∈ list, entry.Within limits := by
    intro list hList
    obtain ⟨record, hRecord, rfl⟩ := List.mem_map.mp hList
    exact within_entries (hBefore record hRecord)
  let atLong := Input.ofBytes (recordBytes long ++ (Input.ofBytes (after.flatMap recordBytes ++ tail)).bytes)
  have hError : record limits atLong = .error
      ⟨.block, .payloadTooLong long.block.length limits.maxBlockSize.toNat⟩ :=
    record_of_long (hBlocks long (List.mem_append_right _ List.mem_cons_self)) hLong rfl
  have hInput : (Input.ofBytes (encode (before ++ long :: after) ++ tail)).bytes =
      arrayHeaderBytes (before.length + (after.length + 1)) ++
        (before.flatMap recordBytes ++ atLong.bytes) := by
    simp [encode, atLong]
  rw [← List.length_map Record.entries] at hHeader hCount hInput ⊢
  exact decode_of_leading_error
    (leading_of_record_error hHeader hCount hBody hWithin hInput hError)

theorem leading_encode (hBatch : Representable batch)
    (hCount : batch.length ≤ limits.maxRecords.toNat)
    (hBlocks : ∀ record ∈ batch, record.block.length ≤ limits.maxBlockSize.toNat) (tail : Bytes) :
    leading limits (Input.ofBytes (encode batch ++ tail)) = .ok (batch, Input.ofBytes tail) := by
  refine (reads_leading limits).ok ⟨batch.map Record.entries, encode_word hBatch, ?_, ?_, ?_⟩ rfl
  · rwa [List.length_map]
  · intro list hList
    obtain ⟨record, hRecord, rfl⟩ := List.mem_map.mp hList
    exact within_entries (hBlocks record hRecord)
  · rw [List.map_map]
    exact List.map_id batch

/-- The standard limits are loose enough for every batch that has an encoding. -/
theorem leading_standard_encode (hBatch : Representable batch) (tail : Bytes) :
    leading .standard (Input.ofBytes (encode batch ++ tail)) = .ok (batch, Input.ofBytes tail) :=
  leading_encode hBatch (Limits.le_standard_maxRecords hBatch.1)
    (fun record hRecord => Limits.le_standard_maxBlockSize (hBatch.2 record hRecord)) tail

/-- What is read from a canonical encoding with any bytes behind it: that the data is malformed for the
first limit that it exceeds, the number of records before the length of blocks and this before the
bytes behind, or the batch. -/
theorem decode_encode_append (limits : Limits) (batch : List Record) (tail : Bytes)
    (hBatch : Representable batch) :
    (limits.maxRecords.toNat < batch.length → IsMalformed (decode limits (encode batch ++ tail))
      ⟨⟨.batch, .tooManyRecords batch.length limits.maxRecords.toNat⟩, none⟩
      s!"batch declares {batch.length} records, limit is {limits.maxRecords.toNat}") ∧
    (batch.length ≤ limits.maxRecords.toNat →
      (∀ (i : Nat) (hIndex : i < batch.length),
        limits.maxBlockSize.toNat < batch[i].block.length →
        (∀ (j : Nat) (hBefore : j < i), batch[j].block.length ≤ limits.maxBlockSize.toNat) →
        IsMalformed (decode limits (encode batch ++ tail))
          ⟨⟨.block, .payloadTooLong batch[i].block.length limits.maxBlockSize.toNat⟩, some i⟩
          s!"payload of {batch[i].block.length} bytes exceeds limit of {limits.maxBlockSize.toNat}") ∧
      ((∀ record ∈ batch, record.block.length ≤ limits.maxBlockSize.toNat) →
        (tail ≠ [] ∧ limits.allowTrailing = false →
          IsMalformed (decode limits (encode batch ++ tail))
            ⟨⟨.batch, .trailingBytes tail.length⟩, none⟩
            s!"{tail.length} trailing bytes after the last record") ∧
        (tail = [] ∨ limits.allowTrailing = true →
          decode limits (encode batch ++ tail) = .ok batch))) ∧
    decode .standard (encode batch) = .ok batch := by
  refine ⟨fun hMany => ⟨decode_encode_of_many hBatch hMany tail, rfl⟩, fun hCount => ⟨?_, ?_⟩, ?_⟩
  · intro i hIndex hLong hBefore
    have hSplit : batch.take i ++ batch[i] :: batch.drop (i + 1) = batch := by
      rw [List.getElem_cons_drop, List.take_append_drop]
    have hFront : ∀ record ∈ batch.take i, record.block.length ≤ limits.maxBlockSize.toNat := by
      intro record hRecord
      obtain ⟨j, hLess, rfl⟩ := List.mem_take_iff_getElem.mp hRecord
      exact hBefore j (by omega)
    have h := @decode_encode_of_long limits (batch.take i) (batch.drop (i + 1)) batch[i]
      (by rwa [hSplit]) (by rwa [hSplit]) hFront hLong tail
    rw [hSplit, List.length_take, Nat.min_eq_left (Nat.le_of_lt hIndex)] at h
    exact ⟨h, rfl⟩
  · intro hBlocks
    have hLeading := leading_encode hBatch hCount hBlocks tail
    constructor
    · rintro ⟨hTail, hStrict⟩
      exact ⟨decode_of_leading_trailing hLeading hTail hStrict, rfl⟩
    · intro hTail
      exact decode_of_leading hLeading hTail
  · have hLeading := leading_standard_encode hBatch []
    rw [List.append_nil] at hLeading
    exact decode_of_leading hLeading (Or.inl rfl)

/-- Of two blocks the second is longer than the limit, and a byte stands behind the batch. -/
theorem decode_encode_second_block_long :
    Representable [⟨-3, [0xde, 0xad]⟩, ⟨0, [1, 2, 3]⟩] ∧
      IsMalformed
        (decode { maxBlockSize := 2 } (encode [⟨-3, [0xde, 0xad]⟩, ⟨0, [1, 2, 3]⟩] ++ [0xc1]))
        ⟨⟨.block, .payloadTooLong 3 2⟩, some 1⟩ "payload of 3 bytes exceeds limit of 2" ∧
      decode .standard (encode [⟨-3, [0xde, 0xad]⟩, ⟨0, [1, 2, 3]⟩]) =
        .ok [⟨-3, [0xde, 0xad]⟩, ⟨0, [1, 2, 3]⟩] := by
  have hBatch : Representable [⟨-3, [0xde, 0xad]⟩, ⟨0, [1, 2, 3]⟩] := by decide
  obtain ⟨-, hFew, -⟩ := decode_encode_append { maxBlockSize := 2 } _ [0xc1] hBatch
  obtain ⟨-, -, hOk⟩ := decode_encode_append .standard _ [] hBatch
  obtain ⟨hLong, -⟩ := (hFew (by decide)).1 1 (by decide) (by decide) (by decide)
  exact ⟨hBatch, ⟨hLong, by decide +kernel⟩, hOk⟩

end Batch

end BlockFeed
