import BlockFeed.Proofs.Batch.Canonical
import BlockFeed.Proofs.Batch.Size

/-! The canonical encoding is the shortest. No choice of headers and names, no order of the entries and
no further entry makes a batch shorter, as long as its heights are written in nine bytes. -/

namespace BlockFeed

open MessagePack Reader

/-- A record with a height in nine bytes and with a block, whatever entries stand around them. -/
inductive FullRecordWord (list : List Entry) : Bytes → Prop where
  | mk {before after : List Entry} {value : Int64} {header front name number back : Bytes}
      (hList : list = before ++ .height value :: after) (hHeader : MapHeader list.length header)
      (hBefore : Words EntryWord before front) (hName : KeyWord Record.heightKey name)
      (hNumber : IntegerWord value.toInt number) (hWide : number.length = 9)
      (hAfter : Words EntryWord after back) (hBlock : ∃ payload, Entry.block payload ∈ list) :
      FullRecordWord list (header ++ (front ++ (name ++ number ++ back)))

/-- A batch word all of whose records have a height in nine bytes and a block. -/
inductive FullBatchWord (batch : List (List Entry)) : Bytes → Prop where
  | mk {header body : Bytes} (hHeader : ArrayHeader batch.length header)
      (hBody : Words FullRecordWord batch body) : FullBatchWord batch (header ++ body)

theorem FullRecordWord.recordWord {list : List Entry} {word : Bytes} (h : FullRecordWord list word) :
    RecordWord list word := by
  obtain ⟨rfl, hHeader, hBefore, hName, hNumber, -, hAfter, -⟩ := h
  have hHeight := EntryWord.mk hName (.height hNumber)
  exact ⟨hHeader, hBefore.append (.cons hHeight hAfter)⟩

theorem FullBatchWord.batchWord {batch : List (List Entry)} {word : Bytes}
    (h : FullBatchWord batch word) : BatchWord batch word := by
  obtain ⟨hHeader, hBody⟩ := h
  exact ⟨hHeader, hBody.mono fun list word hWord => hWord.recordWord⟩

namespace MessagePack

theorem KeyWord.length_lt {key word : Bytes} (h : KeyWord key word) : key.length < word.length := by
  cases h with
  | string hHeader | binary hHeader =>
      have hPos := hHeader.length_pos
      rw [List.length_append]
      omega

end MessagePack

namespace Batch

section Sizes

/-- No header of an array is shorter than the one that is written. -/
theorem headerSize_le {count : Nat} {header : Bytes} (h : ArrayHeader count header) :
    headerSize count ≤ header.length := by
  have hTwo : Bytes.capacity 2 = 65536 := by decide
  rw [headerSize_eq]
  cases h with
  | short hCount => simp [Nat.le_of_lt_succ hCount]
  | wide hMarker hCount =>
      simp only [List.mem_cons, Prod.mk.injEq, List.not_mem_nil, or_false] at hMarker
      rw [List.length_cons, Bytes.bigEndian_length]
      rcases hMarker with ⟨-, rfl⟩ | ⟨-, rfl⟩ <;> split_ifs <;> omega

/-- No header of a binary payload is shorter than the one that is written. -/
theorem blockHeaderSize_le {length : Nat} {header : Bytes} (h : BinaryHeader length header) :
    blockHeaderSize length ≤ header.length := by
  have hOne : Bytes.capacity 1 = 256 := by decide
  have hTwo : Bytes.capacity 2 = 65536 := by decide
  rw [blockHeaderSize_eq]
  cases h with
  | short hLength => cases hLength
  | wide hMarker hLength =>
      simp only [List.mem_cons, Prod.mk.injEq, List.not_mem_nil, or_false] at hMarker
      rw [List.length_cons, Bytes.bigEndian_length]
      rcases hMarker with ⟨-, rfl⟩ | ⟨-, rfl⟩ | ⟨-, rfl⟩ <;> split_ifs <;> omega

theorem recordSize_mono {length length' : Nat} (h : length ≤ length') :
    recordSize length ≤ recordSize length' := by
  have hHeader : blockHeaderSize length ≤ blockHeaderSize length' := by
    rw [blockHeaderSize_eq, blockHeaderSize_eq]
    split_ifs <;> omega
  rw [recordSize, recordSize]
  omega

end Sizes

end Batch

/-- The entry of a block has at least its bytes in the encoding. -/
theorem EntryWord.blockSize_le {payload word : Bytes} (h : EntryWord (.block payload) word) :
    Record.blockToken.length + (Batch.blockHeaderSize payload.length + payload.length) ≤ word.length := by
  obtain ⟨hKey, hValue⟩ := h
  cases hValue with
  | block hWord =>
      obtain ⟨hHeader⟩ := hWord
      have hName : Record.blockToken.length = Record.blockKey.length + 1 := rfl
      have hNamed := hKey.length_lt
      have hSize := Batch.blockHeaderSize_le hHeader
      simp only [List.length_append]
      omega

/-- Where a block is written in a record, one is that has at least the length of the record's block. -/
theorem Record.exists_block_of_mem {list : List Entry} (h : ∃ payload, Entry.block payload ∈ list) :
    ∃ payload, Entry.block payload ∈ list ∧ (ofEntries list).block.length ≤ payload.length := by
  rcases block_ofEntries_cases list with hNone | hBlock
  · obtain ⟨payload, hMem⟩ := h
    exact ⟨payload, hMem, by simp [hNone]⟩
  · exact ⟨_, hBlock, Nat.le_refl _⟩

/-- The entry with the height and the entry with the block are two, so both sizes count. -/
theorem FullRecordWord.recordSize_le {list : List Entry} {word : Bytes} (h : FullRecordWord list word) :
    Batch.recordSize (Record.ofEntries list).block.length ≤ word.length := by
  obtain @⟨before, after, value, header, front, name, number, back, rfl, hHeader, hBefore, hName, -, hWide,
    hAfter, hBlock⟩ := h
  obtain ⟨payload, hMem, hLength⟩ := Record.exists_block_of_mem hBlock
  have hWord : ∃ word, EntryWord (.block payload) word ∧ word.length ≤ front.length + back.length := by
    rcases List.mem_append.mp hMem with hFront | hBack
    · obtain ⟨word, hWord, hInfix⟩ := hBefore.exists_infix_of_mem hFront
      exact ⟨word, hWord, Nat.le_add_right_of_le hInfix.length_le⟩
    · have hOther : Entry.block payload ∈ after := by simpa using hBack
      obtain ⟨word, hWord, hInfix⟩ := hAfter.exists_infix_of_mem hOther
      exact ⟨word, hWord, Nat.le_add_left_of_le hInfix.length_le⟩
  obtain ⟨word, hWord, hInside⟩ := hWord
  have hBlockSize := hWord.blockSize_le
  have hPos := hHeader.length_pos
  have hNamed := hName.length_lt
  have hHeight : Record.heightToken.length = Record.heightKey.length + 1 := rfl
  have hMono := Batch.recordSize_mono hLength
  simp only [Batch.recordSize, Record.fixedSize, Record.heightSize] at hMono ⊢
  simp only [List.length_append]
  omega

theorem FullBatchWord.length_encode_le {batch : List (List Entry)} {word : Bytes}
    (h : FullBatchWord batch word) :
    (Batch.encode (batch.map Record.ofEntries)).length ≤ word.length := by
  obtain ⟨hHeader, hBody⟩ := h
  have hHeaderSize := Batch.headerSize_le hHeader
  have hBodySize := hBody.sum_le_length fun list word hWord => hWord.recordSize_le
  rw [Batch.length_encode, List.length_map, List.map_map, List.length_append]
  exact Nat.add_le_add hHeaderSize hBodySize

namespace Batch

/-- Under the standard limits every batch word is read. No header gives a count or a length beyond them. -/
theorem decode_standard_of_batchWord {batch : List (List Entry)} {word : Bytes} (h : BatchWord batch word) :
    decode .standard word = .ok (batch.map Record.ofEntries) := by
  obtain @⟨header, body, hHeader, hBody⟩ := h
  have hCount := Limits.le_standard_maxRecords hHeader.lt_countBound
  have hWithin : ∀ list ∈ batch, ∀ entry ∈ list, entry.Within .standard := by
    intro list hList
    obtain ⟨_, hRecord⟩ := hBody.exists_of_mem hList
    exact hRecord.within_standard
  have hLeading : leading .standard (Input.ofBytes (header ++ body)) =
      .ok (batch.map Record.ofEntries, Input.ofBytes []) :=
    (reads_leading .standard).ok ⟨batch, ⟨hHeader, hBody⟩, hCount, hWithin, rfl⟩ (List.append_nil _).symm
  exact decode_of_leading hLeading (Or.inl rfl)

theorem recordBytes_full {record : Record} (hBlock : record.block.length < Marker.countBound) :
    FullRecordWord record.entries (recordBytes record) := by
  have hWord : FullRecordWord record.entries _ :=
    FullRecordWord.mk rfl record.mapMarker_word Words.nil Record.heightToken_word
      (int64Bytes_word record.height) (int64Bytes_length record.height)
      (.cons (blockEntry_word hBlock) .nil) ⟨record.block, by simp [Record.entries]⟩
  simpa [recordBytes] using hWord

theorem encode_full {batch : List Record} (hBatch : Representable batch) :
    FullBatchWord (batch.map Record.entries) (encode batch) := by
  have hHeader := encode_header_word hBatch
  exact ⟨hHeader, Words.flatMap _ _ _ fun record hRecord => recordBytes_full (hBatch.2 record hRecord)⟩

/-- Each record of the word has a height in nine bytes and a block. -/
def SpelledOut (word : Bytes) : Prop := ∃ batch, FullBatchWord batch word

/-- The encoding of a batch holds the batch and spells it out, and no word is shorter that does. -/
theorem encode_minimal {batch : List Record} (hBatch : Representable batch) :
    decode .standard (encode batch) = .ok batch ∧ SpelledOut (encode batch) ∧
      ∀ word, decode .standard word = .ok batch → SpelledOut word →
        (encode batch).length ≤ word.length := by
  have hFull := encode_full hBatch
  refine ⟨?_, ⟨_, hFull⟩, ?_⟩
  · have hOwn := decode_standard_of_batchWord hFull.batchWord
    rw [List.map_map] at hOwn
    exact hOwn.trans (congrArg Except.ok (List.map_id batch))
  · intro word hWord hSpelled
    obtain ⟨list, hList⟩ := hSpelled
    rw [decode_standard_of_batchWord hList.batchWord] at hWord
    rw [← Except.ok.inj hWord]
    exact hList.length_encode_le

/-- A record of three entries with wide headers, an entry under an unknown name, and the block before
the height, which is written as an unsigned integer of eight bytes. -/
theorem encode_minimal_wide_layout :
    Representable [⟨5, [0xc1, 7]⟩] ∧ (encode [⟨5, [0xc1, 7]⟩]).length ≤
      [0xdc, 0, 1, 0xde, 0, 3,
        0xa0, 0xc0,
        0xc4, 5, 0x62, 0x6c, 0x6f, 0x63, 0x6b, 0xc5, 0, 2, 0xc1, 7,
        0xc4, 6, 0x68, 0x65, 0x69, 0x67, 0x68, 0x74, 0xcf, 0, 0, 0, 0, 0, 0, 0, 5].length := by
  have hBatch : Representable [⟨5, [0xc1, 7]⟩] := by decide
  have hArray : ArrayHeader 1 (0xdc :: Bytes.bigEndian 2 1) := .wide (by decide) (by decide)
  have hMap : MapHeader 3 (0xde :: Bytes.bigEndian 2 3) := .wide (by decide) (by decide)
  have hUnknown : EntryWord (.unknown []) ([0xa0] ++ [] ++ [0xc0]) :=
    ⟨.string (.short (by decide)), .unknown (by decide) (by decide) .nil⟩
  have hLength : BinaryHeader 2 (0xc5 :: Bytes.bigEndian 2 2) := .wide (by decide) (by decide)
  have hBlock : EntryWord (.block [0xc1, 7])
      ((0xc4 :: Bytes.bigEndian 1 5) ++ Record.blockKey ++ ((0xc5 :: Bytes.bigEndian 2 2) ++ [0xc1, 7])) :=
    ⟨.binary (.wide (by decide) (by decide)), .block ⟨hLength⟩⟩
  have hName : KeyWord Record.heightKey ((0xc4 :: Bytes.bigEndian 1 6) ++ Record.heightKey) :=
    .binary (.wide (by decide) (by decide))
  have hNumber : IntegerWord (5 : Int64).toInt (0xcf :: Bytes.bigEndian 8 5) :=
    .unsigned (by decide) (by decide) (by decide)
  have hRecord : FullRecordWord [.unknown [], .block [0xc1, 7], .height 5] _ :=
    .mk rfl hMap (.cons hUnknown (.cons hBlock .nil)) hName hNumber rfl .nil ⟨[0xc1, 7], by simp⟩
  have hWord : FullBatchWord [[.unknown [], .block [0xc1, 7], .height 5]] _ :=
    .mk hArray (.cons hRecord .nil)
  exact ⟨hBatch, (encode_minimal hBatch).2.2 _ (by decide +kernel) ⟨_, hWord⟩⟩

end Batch

end BlockFeed
