import BlockFeed.Proofs.Batch.Canonical

/-! Heights are read to the number that is written, whatever form it is written in. In a batch the form
of a height can be exchanged for any other of the same number, and what is read stays the same. -/

namespace BlockFeed

open MessagePack Reader

/-- Words at the front of the same bytes are the same word. -/
def PrefixFree {α : Type} (Word : α → Bytes → Prop) : Prop :=
  ∀ ⦃x y word word' back back'⦄, Word x word → Word y word' → word ++ back = word' ++ back' →
    word = word' ∧ back = back'

/-- Where a word has `form` behind `front`, it is still a word with `form'` in the same place. Other
bytes may stand behind the word, but it does not end before the form does. -/
def Exchanges (front form form' : Bytes) (Word : Bytes → Prop) : Prop :=
  ∀ ⦃word tail back⦄, Word word → word ++ tail = front ++ (form ++ back) →
    ∃ rest, word = front ++ (form ++ rest) ∧ Word (front ++ (form' ++ rest))

section Exchange

variable {α ε : Type} {Word : α → Bytes → Prop} {front form form' : Bytes}

/-- An exchange in an item behind some others is one in the list of items. -/
theorem exchanges_words (hFree : PrefixFree Word) (hItem : ∀ x, Exchanges front form form' (Word x))
    {before list : List α} {own : Bytes} (hBefore : Words Word before own)
    (hMore : before.length < list.length) : Exchanges (own ++ front) form form' (Words Word list) := by
  induction hBefore generalizing list with
  | nil =>
      intro word tail back hWords hSame
      cases hWords with
      | nil => exact absurd hMore (Nat.lt_irrefl 0)
      | @cons x others first behind hFirst hOthers =>
          rw [List.append_assoc] at hSame
          obtain ⟨rest, rfl, hOther⟩ := hItem x hFirst hSame
          refine ⟨rest ++ behind, by simp, ?_⟩
          simpa using Words.cons hOther hOthers
  | @cons y before front' own hFront hBefore ih =>
      intro word tail back hWords hSame
      cases hWords with
      | nil => exact absurd hMore (Nat.not_lt_zero _)
      | @cons x others first behind hFirst hOthers =>
          -- both lists start with the same word, so the exchange is behind it in the second one too
          rw [List.append_assoc, List.append_assoc, List.append_assoc] at hSame
          obtain ⟨rfl, hBehind⟩ := hFree hFirst hFront hSame
          rw [← List.append_assoc own] at hBehind
          obtain ⟨rest, rfl, hOther⟩ := ih (Nat.lt_of_succ_lt_succ hMore) hOthers hBehind
          refine ⟨rest, by simp, ?_⟩
          simpa using Words.cons hFirst hOther

/-- An exchange in an item is one in the list of items with its header, which says how many there are. -/
theorem exchanges_counted {reader : Reader ε Nat} {Header : Nat → Bytes → Prop}
    (hReads : Reads reader Header) (hFree : PrefixFree Word)
    (hItem : ∀ x, Exchanges front form form' (Word x)) {count : Nat} {header own : Bytes}
    {before : List α} (hHeader : Header count header) (hBefore : Words Word before own)
    (hMore : before.length < count) (list : List α) :
    Exchanges (header ++ (own ++ front)) form form' (fun word => ∃ first body,
      Header list.length first ∧ Words Word list body ∧ word = first ++ body) := by
  rintro _ tail back ⟨first, body, hFirst, hBody, rfl⟩ hSame
  rw [List.append_assoc, List.append_assoc] at hSame
  obtain ⟨hCount, rfl, hBehind⟩ := hReads.append_inj hFirst hHeader hSame
  obtain ⟨rest, rfl, hOther⟩ := exchanges_words hFree hItem hBefore (hCount ▸ hMore) hBody hBehind
  exact ⟨rest, by simp, first, _, hFirst, hOther, by simp⟩

end Exchange

theorem prefixFree_entryWord : PrefixFree EntryWord := by
  intro entry entry' word word' back back' hWord hWord' hSame
  have hReads := Batch.reads_entry .standard {}
  exact (hReads.append_inj ⟨entry, hWord, hWord.within_standard, rfl⟩
    ⟨entry', hWord', hWord'.within_standard, rfl⟩ hSame).2

theorem prefixFree_recordWord : PrefixFree RecordWord := by
  intro list list' word word' back back' hWord hWord' hSame
  have hReads := Batch.reads_record .standard
  exact (hReads.append_inj ⟨list, hWord, hWord.within_standard, rfl⟩
    ⟨list', hWord', hWord'.within_standard, rfl⟩ hSame).2

/-- The bytes of a batch up to the value of a height: the header, the records before it, and of its own
record the header, the entries before it and its name. Both headers announce more than these. -/
inductive HeightFront : Bytes → Prop where
  | mk {count entryCount : Nat} {header body recordHeader own key : Bytes}
      {before : List (List Entry)} {entries : List Entry}
      (hHeader : ArrayHeader count header) (hBody : Words RecordWord before body)
      (hCount : before.length < count) (hRecordHeader : MapHeader entryCount recordHeader)
      (hOwn : Words EntryWord entries own) (hEntryCount : entries.length < entryCount)
      (hKey : KeyWord Record.heightKey key) :
      HeightFront (header ++ (body ++ (recordHeader ++ (own ++ key))))

section Forms

variable {height : Int64} {front form form' : Bytes} (hForm : IntegerWord height.toInt form)
  (hForm' : IntegerWord height.toInt form')

include hForm hForm'

theorem exchanges_entryWord {key : Bytes} (hKey : KeyWord Record.heightKey key) (entry : Entry) :
    Exchanges key form form' (EntryWord entry) := by
  intro word tail back hWord hSame
  obtain @⟨name, first, value, hName, hValue⟩ := hWord
  rw [List.append_assoc] at hSame
  obtain ⟨rfl, rfl, hBehind⟩ := reads_text.append_inj hName hKey hSame
  obtain ⟨own, rfl, hOwn⟩ := EntryValue.height_iff.mp hValue
  obtain ⟨rfl, rfl, -⟩ := reads_int64.append_inj hOwn hForm hBehind
  refine ⟨[], by simp, ?_⟩
  rw [List.append_nil]
  exact ⟨hKey, .height hForm'⟩

theorem exchanges_recordWord {count : Nat} {header own key : Bytes} {before : List Entry}
    (hHeader : MapHeader count header) (hOwn : Words EntryWord before own)
    (hMore : before.length < count) (hKey : KeyWord Record.heightKey key) (list : List Entry) :
    Exchanges (header ++ (own ++ key)) form form' (RecordWord list) := by
  intro word tail back hWord hSame
  obtain ⟨hList, hEntries⟩ := hWord
  obtain ⟨rest, hRest, first, body, hFirst, hOther, hWord⟩ := exchanges_counted reads_mapHeader
    prefixFree_entryWord (exchanges_entryWord hForm hForm' hKey) hHeader hOwn hMore list
    ⟨_, _, hList, hEntries, rfl⟩ hSame
  exact ⟨rest, hRest, hWord ▸ ⟨hFirst, hOther⟩⟩

theorem exchanges_batchWord (hFront : HeightFront front) (batch : List (List Entry)) :
    Exchanges front form form' (BatchWord batch) := by
  obtain ⟨hHeader, hBody, hMore, hRecordHeader, hOwn, hMoreEntries, hKey⟩ := hFront
  intro word tail back hWord hSame
  obtain ⟨hBatch, hRecords⟩ := hWord
  obtain ⟨rest, hRest, first, body, hFirst, hOther, hWord⟩ := exchanges_counted reads_arrayHeader
    prefixFree_recordWord (exchanges_recordWord hForm hForm' hRecordHeader hOwn hMoreEntries hKey)
    hHeader hBody hMore batch ⟨_, _, hBatch, hRecords, rfl⟩ hSame
  exact ⟨rest, hRest, hWord ▸ ⟨hFirst, hOther⟩⟩

end Forms

namespace Batch

variable {limits : Limits} {height : Int64} {front form form' back : Bytes}

theorem decode_of_exchanged (hFront : HeightFront front) (hForm : IntegerWord height.toInt form)
    (hForm' : IntegerWord height.toInt form') {result : List Record}
    (h : decode limits (front ++ form ++ back) = .ok result) :
    decode limits (front ++ form' ++ back) = .ok result := by
  rw [List.append_assoc] at h ⊢
  obtain ⟨left, hLeading, hTail⟩ := decode_eq_ok_iff_leading.mp h
  obtain ⟨word, ⟨batch, hBatch, hCount, hWithin, rfl⟩, hData⟩ :=
    (reads_leading limits _ _ _).mp hLeading
  obtain ⟨rest, rfl, hOther⟩ := exchanges_batchWord hForm hForm' hFront batch hBatch hData.symm
  have hBack : back = rest ++ left.bytes := by simpa using hData
  have hRead : leading limits (Input.ofBytes (front ++ (form' ++ back))) =
      .ok (batch.map Record.ofEntries, left) :=
    (reads_leading limits).ok ⟨batch, hOther, hCount, hWithin, rfl⟩ (by simp [hBack])
  exact decode_eq_ok_iff_leading.mpr ⟨left, hRead, hTail⟩

theorem entry_of_height {key : Bytes} (hKey : KeyWord Record.heightKey key)
    (hForm : IntegerWord height.toInt form) (record : Record) (tail : Bytes) :
    entry limits record (Input.ofBytes (key ++ form ++ tail)) =
      .ok ({ record with height }, Input.ofBytes tail) :=
  (reads_entry limits record).ok ⟨.height height, ⟨hKey, .height hForm⟩,
    by simp [Entry.Within, Entry.block?], rfl⟩ rfl

theorem canonicalize_congr {data data' : Bytes}
    (h : ∀ result, decode limits data = .ok result ↔ decode limits data' = .ok result) :
    canonicalize limits data = canonicalize limits data' := by
  rw [canonicalize, canonicalize]
  cases hData : decode limits data with
  | ok result => rw [(h result).mp hData]
  | error error =>
      cases hData' : decode limits data' with
      | ok result => cases hData.symm.trans ((h result).mpr hData')
      | error error' => rfl

/-- An integer in any form is read to its value, or refused by the type that a height has. -/
theorem reading_int64_of_word (field : Field) {value : Int} {form : Bytes}
    (hForm : IntegerWord value form) (tail : Bytes) :
    (value ≤ Int64.maxValue.toInt → ∃ height : Int64, height.toInt = value ∧
      reading field int64 (Input.ofBytes (form ++ tail)) = .ok (height, Input.ofBytes tail)) ∧
    (Int64.maxValue.toInt < value → ∃ cause : Cause,
      cause.kind = .typeMismatch "integer within int64 range" 0xcf ∧
        reading field int64 (Input.ofBytes (form ++ tail)) = .error ⟨field, cause⟩) := by
  have hInput : (Input.ofBytes (form ++ tail)).bytes = form ++ (Input.ofBytes tail).bytes := rfl
  have hRead := int64_of_word hForm hInput
  constructor
  · intro hUpper
    rw [if_pos hUpper] at hRead
    exact ⟨Int64.ofInt value, Int64.toInt_ofInt_of_le hForm.lower (Int.lt_add_one_of_le hUpper),
      mapError_eq_ok_iff.mpr hRead⟩
  · intro hBeyond
    rw [if_neg (Int.not_le.mpr hBeyond)] at hRead
    exact ⟨_, rfl, mapError_eq_error_iff.mpr ⟨_, hRead, rfl⟩⟩

/-- Heights are read exactly. A form of an integer, with any bytes behind it, is read to the integer and
no further, or refused under the marker of the widest unsigned integers where the integer is beyond the
signed 64-bit range, below which no form reaches. What is read, in turn, is a form of the result. So a
height is written back in the same nine bytes whatever form it had, and gives the same record: wherever
it stands in a batch, and whatever stands behind it, its form can be exchanged for any other. -/
theorem height_exact (limits : Limits) (field : Field) :
    (∀ value form tail, IntegerWord value form →
      (value ≤ Int64.maxValue.toInt → ∃ height : Int64, height.toInt = value ∧
        reading field int64 (Input.ofBytes (form ++ tail)) = .ok (height, Input.ofBytes tail)) ∧
      (Int64.maxValue.toInt < value → ∃ cause : Cause,
        cause.kind = .typeMismatch "integer within int64 range" 0xcf ∧
          reading field int64 (Input.ofBytes (form ++ tail)) = .error ⟨field, cause⟩)) ∧
    (∀ input rest (height : Int64), reading field int64 input = .ok (height, rest) →
      ∃ form, IntegerWord height.toInt form ∧ input.bytes = form ++ rest.bytes) ∧
    ∀ (height : Int64) form form', IntegerWord height.toInt form → IntegerWord height.toInt form' →
      int64Bytes height = 0xd3 :: Bytes.bigEndian 8 (height.toInt % Bytes.capacity 8).toNat ∧
      (∀ record key tail, KeyWord Record.heightKey key →
        entry limits record (Input.ofBytes (key ++ form ++ tail)) =
          .ok ({ record with height }, Input.ofBytes tail)) ∧
      ∀ front back, HeightFront front →
        (∀ result, decode limits (front ++ form ++ back) = .ok result ↔
          decode limits (front ++ form' ++ back) = .ok result) ∧
        canonicalize limits (front ++ form ++ back) = canonicalize limits (front ++ form' ++ back) := by
  refine ⟨fun value form tail hForm => reading_int64_of_word field hForm tail,
    fun input rest height h => (reads_reading field reads_int64 _ _ _).mp h,
    fun height form form' hForm hForm' => ⟨?_, ?_, ?_⟩⟩
  · rw [int64Bytes, toUInt64_toNat]
    rfl
  · intro record key tail hKey
    exact entry_of_height hKey hForm record tail
  · intro front back hFront
    have hSame : ∀ result, decode limits (front ++ form ++ back) = .ok result ↔
        decode limits (front ++ form' ++ back) = .ok result :=
      fun result => ⟨decode_of_exchanged hFront hForm hForm', decode_of_exchanged hFront hForm' hForm⟩
    exact ⟨hSame, canonicalize_congr hSame⟩

/-- A height below zero in two bytes and in eight, as the second entry of a second record, and one that
is too large by one. -/
theorem height_exact_two_widths :
    HeightFront [0x92, 0x80, 0x82, 0xa0, 0xc0, 0xa6, 0x68, 0x65, 0x69, 0x67, 0x68, 0x74] ∧
    IntegerWord (-256) [0xd1, 0xff, 0] ∧
    IntegerWord (-256) [0xd3, 0xff, 0xff, 0xff, 0xff, 0xff, 0xff, 0xff, 0] ∧
    decode .standard ([0x92, 0x80, 0x82, 0xa0, 0xc0, 0xa6, 0x68, 0x65, 0x69, 0x67, 0x68, 0x74] ++
      [0xd1, 0xff, 0] ++ []) = .ok [{}, ⟨-256, []⟩] ∧
    decode .standard ([0x92, 0x80, 0x82, 0xa0, 0xc0, 0xa6, 0x68, 0x65, 0x69, 0x67, 0x68, 0x74] ++
      [0xd3, 0xff, 0xff, 0xff, 0xff, 0xff, 0xff, 0xff, 0] ++ []) = .ok [{}, ⟨-256, []⟩] ∧
    ∃ cause : Cause, cause.kind = .typeMismatch "integer within int64 range" 0xcf ∧
      reading .height int64 (Input.ofBytes ([0xcf, 0x80, 0, 0, 0, 0, 0, 0, 0] ++ [])) =
        .error ⟨.height, cause⟩ := by
  have hArray : ArrayHeader 2 [0x92] := CountWord.short (by decide)
  have hMap : MapHeader 2 [0x82] := CountWord.short (by decide)
  have hEmpty : RecordWord [] [0x80] := ⟨CountWord.short (by decide), .nil⟩
  have hUnknown : EntryWord (.unknown []) [0xa0, 0xc0] :=
    ⟨.string (CountWord.short (by decide)), .unknown (by decide) (by decide) .nil⟩
  have hFront := HeightFront.mk hArray (.cons hEmpty .nil) (by decide) hMap (.cons hUnknown .nil)
    (by decide) Record.heightToken_word
  have hNarrow : IntegerWord (-256) [0xd1, 0xff, 0] :=
    IntegerWord.signed (show ((0xd1 : UInt8), 2) ∈ _ by decide) (by decide) (by decide)
  have hWide : IntegerWord (-256) [0xd3, 0xff, 0xff, 0xff, 0xff, 0xff, 0xff, 0xff, 0] :=
    IntegerWord.signed (show ((0xd3 : UInt8), 8) ∈ _ by decide) (by decide) (by decide)
  have hLarge : IntegerWord 9223372036854775808 [0xcf, 0x80, 0, 0, 0, 0, 0, 0, 0] :=
    IntegerWord.unsigned (show ((0xcf : UInt8), 8) ∈ _ by decide) (by decide) (by decide)
  obtain ⟨hRead, -, hForms⟩ := height_exact .standard .height
  obtain ⟨-, -, hSame⟩ := hForms (-256) _ _ hNarrow hWide
  have hOk : decode .standard ([0x92, 0x80, 0x82, 0xa0, 0xc0, 0xa6, 0x68, 0x65, 0x69, 0x67, 0x68, 0x74] ++
      [0xd1, 0xff, 0] ++ []) = .ok [{}, ⟨-256, []⟩] := by decide +kernel
  exact ⟨hFront, hNarrow, hWide, hOk, ((hSame _ [] hFront).1 _).mp hOk,
    (hRead _ _ [] hLarge).2 (by decide)⟩

end Batch

end BlockFeed
