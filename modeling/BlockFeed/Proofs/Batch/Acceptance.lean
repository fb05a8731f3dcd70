import BlockFeed.Proofs.Batch.Grammar
import BlockFeed.Proofs.MessagePack.Values
import BlockFeed.Proofs.Batch.Steps

/-! Batches are read exactly where a word of the grammar stands that keeps to the limits, and the
records are the ones that the word describes. -/

namespace BlockFeed

open MessagePack Reader

variable {limits : Limits}

/-- The record with the field that an entry gives. -/
def Entry.applyTo (record : Record) : Entry → Record
  | height value => { record with height := value }
  | block payload => { record with block := payload }
  | unknown _ => record

/-- Entries that are applied in order leave the last one of each field. -/
theorem Record.foldl_applyTo (entries : List Entry) (record : Record) :
    entries.foldl Entry.applyTo record =
      ⟨(entries.filterMap Entry.height?).getLastD record.height,
        (entries.filterMap Entry.block?).getLastD record.block⟩ := by
  induction entries generalizing record with
  | nil => rfl
  | cons entry entries ih =>
      rw [List.foldl_cons, ih]
      cases entry <;> simp only [Entry.applyTo, Entry.height?, Entry.block?, List.filterMap_cons,
        List.getLastD_cons]

namespace Batch

theorem reads_reading {α : Type} (field : Field) {reader : Reader Fault α} {Word : α → Bytes → Prop}
    (hReads : Reads reader Word) : Reads (reading field reader) Word :=
  hReads.mapError

theorem reads_block (limits : Limits) : Reads (block limits) (fun payload word =>
    BinaryWord payload word ∧ payload.length ≤ limits.maxBlockSize.toNat) := by
  refine ((reads_reading _ reads_binaryHeader).bind (fun length payload word =>
    length ≤ limits.maxBlockSize.toNat ∧ word = payload ∧ payload.length = length)
    fun length => ?_).of_iff fun payload word => ?_
  · split
    · next hLong =>
        exact (reads_throw _).of_iff fun payload word => by simp [Nat.not_le.mpr hLong]
    · next hShort =>
        exact (reads_reading _ (reads_take _ length)).of_iff fun payload word => by
          simp [Nat.le_of_not_lt hShort]
  · constructor
    · rintro ⟨length, header, back, hHeader, ⟨hLimit, rfl, rfl⟩, rfl⟩
      exact ⟨⟨hHeader⟩, hLimit⟩
    · rintro ⟨⟨hHeader⟩, hLimit⟩
      exact ⟨_, _, payload, hHeader, ⟨hLimit, rfl, rfl⟩, rfl⟩

/-- An entry is read as the grammar has it, into whatever record stands before it. -/
theorem reads_entry (limits : Limits) (record : Record) : Reads (entry limits record)
    (fun updated word => ∃ entry, EntryWord entry word ∧ entry.Within limits ∧
      entry.applyTo record = updated) := by
  refine ((reads_reading _ reads_text).bind (fun key updated word => ∃ entry,
    EntryValue key entry word ∧ entry.Within limits ∧ entry.applyTo record = updated)
    fun key => ?_).of_iff fun updated word => ?_
  · split
    · next hHeight =>
        subst hHeight
        refine (reads_reading _ reads_int64).bind_pure.of_iff fun updated word => ?_
        simp only [EntryValue.height_iff]
        constructor
        · rintro ⟨value, hValue, rfl⟩
          exact ⟨.height value, ⟨value, rfl, hValue⟩, by simp [Entry.Within, Entry.block?], rfl⟩
        · rintro ⟨_, ⟨value, rfl, hValue⟩, -, rfl⟩
          exact ⟨value, hValue, rfl⟩
    · next hHeight =>
        split
        · next hBlock =>
            subst hBlock
            refine (reads_block limits).bind_pure.of_iff fun updated word => ?_
            simp only [EntryValue.block_iff]
            constructor
            · rintro ⟨payload, ⟨hValue, hLimit⟩, rfl⟩
              exact ⟨.block payload, ⟨payload, rfl, hValue⟩,
                by simpa [Entry.Within, Entry.block?], rfl⟩
            · rintro ⟨_, ⟨payload, rfl, hValue⟩, hWithin, rfl⟩
              exact ⟨payload, ⟨hValue, hWithin payload rfl⟩, rfl⟩
        · next hBlock =>
            refine (reads_reading _ reads_skip).bind_pure.of_iff fun updated word => ?_
            simp only [EntryValue.unknown_iff hHeight hBlock]
            constructor
            · rintro ⟨_, hValue, rfl⟩
              exact ⟨.unknown key, ⟨rfl, hValue⟩, by simp [Entry.Within, Entry.block?], rfl⟩
            · rintro ⟨_, ⟨rfl, hValue⟩, -, rfl⟩
              exact ⟨(), hValue, rfl⟩
  · constructor
    · rintro ⟨key, front, back, hKey, ⟨entry, hValue, hWithin, rfl⟩, rfl⟩
      exact ⟨entry, ⟨hKey, hValue⟩, hWithin, rfl⟩
    · rintro ⟨entry, ⟨hKey, hValue⟩, hWithin, rfl⟩
      exact ⟨_, _, _, hKey, ⟨entry, hValue, hWithin, rfl⟩, rfl⟩

/-- Entries are read one behind the other, each into what the ones before it leave. -/
theorem reads_entries (limits : Limits) (count : Nat) (record : Record) :
    Reads (entries limits count record) (fun updated word => ∃ list : List Entry,
      list.length = count ∧ Words EntryWord list word ∧ (∀ entry ∈ list, entry.Within limits) ∧
        list.foldl Entry.applyTo record = updated) := by
  induction count generalizing record with
  | zero =>
      refine (reads_pure record).of_iff fun updated word => ?_
      constructor
      · rintro ⟨rfl, rfl⟩
        exact ⟨[], rfl, .nil, by simp, rfl⟩
      · rintro ⟨list, hLength, hWords, -, rfl⟩
        rw [List.eq_nil_of_length_eq_zero hLength] at hWords ⊢
        cases hWords
        exact ⟨rfl, rfl⟩
  | succ others ih =>
      rw [entries_succ]
      refine ((reads_entry limits record).bind _ ih).of_iff fun updated word => ?_
      constructor
      · rintro ⟨_, front, back, ⟨entry, hEntry, hWithin, rfl⟩, ⟨list, rfl, hWords, hOthers, rfl⟩, rfl⟩
        exact ⟨entry :: list, rfl, .cons hEntry hWords, List.forall_mem_cons.mpr ⟨hWithin, hOthers⟩, rfl⟩
      · rintro ⟨list, hLength, hWords, hWithin, rfl⟩
        cases hWords with
        | nil => cases hLength
        | cons hEntry hWords =>
            obtain ⟨hFirst, hOthers⟩ := List.forall_mem_cons.mp hWithin
            exact ⟨_, _, _, ⟨_, hEntry, hFirst, rfl⟩,
              ⟨_, Nat.succ.inj hLength, hWords, hOthers, rfl⟩, rfl⟩

/-- The header of a record is accepted where the input behind it has room for its entries. -/
theorem entryCount_eq_ok_iff (input rest : Input) (count : Nat) :
    entryCount input = .ok (count, rest) ↔
      (∃ header, MapHeader count header ∧ input.bytes = header ++ rest.bytes) ∧
        Record.minEntrySize * count ≤ rest.size := by
  rw [← (reads_reading .record reads_mapHeader) input rest count, entryCount, bind_eq_ok_iff]
  constructor
  · rintro ⟨declared, middle, hHeader, hGuard⟩
    rw [bind_ok (show Reader.remaining middle = .ok (middle.size, middle) from rfl)] at hGuard
    split at hGuard
    · cases hGuard
    · next hRoom =>
        cases hGuard
        exact ⟨hHeader, Nat.le_of_not_lt hRoom⟩
  · rintro ⟨hHeader, hRoom⟩
    refine ⟨count, rest, hHeader, ?_⟩
    rw [bind_ok (show Reader.remaining rest = .ok (rest.size, rest) from rfl),
      if_neg (Nat.not_lt.mpr hRoom)]
    rfl

/-- The test on the number of entries refuses no record, since each entry takes two bytes. -/
theorem reads_record (limits : Limits) : Reads (record limits) (fun result word =>
    ∃ list, RecordWord list word ∧ (∀ entry ∈ list, entry.Within limits) ∧
      Record.ofEntries list = result) := by
  intro input rest result
  rw [record, bind_eq_ok_iff]
  constructor
  · rintro ⟨count, middle, hCount, hEntries⟩
    obtain ⟨⟨header, hHeader, hInput⟩, -⟩ := (entryCount_eq_ok_iff input middle count).mp hCount
    obtain ⟨body, ⟨list, rfl, hBody, hWithin, rfl⟩, hMiddle⟩ :=
      (reads_entries limits count {} middle rest result).mp hEntries
    refine ⟨header ++ body, ⟨list, ⟨hHeader, hBody⟩, hWithin, ?_⟩, ?_⟩
    · exact (Record.foldl_applyTo list {}).symm
    · rw [hInput, hMiddle, List.append_assoc]
  · rintro ⟨word, ⟨list, hRecord, hWithin, rfl⟩, hInput⟩
    obtain @⟨header, body, hHeader, hBody⟩ := hRecord
    have hSize := hBody.mul_length_le fun _ _ hEntry => hEntry.minEntrySize_le
    refine ⟨list.length, Input.ofBytes (body ++ rest.bytes), (entryCount_eq_ok_iff _ _ _).mpr
      ⟨⟨header, hHeader, by rw [hInput, List.append_assoc, Input.bytes_ofBytes]⟩, ?_⟩, ?_⟩
    · rw [Input.size_ofBytes, List.length_append]
      omega
    · exact (reads_entries limits _ {}).ok
        ⟨list, rfl, hBody, hWithin, Record.foldl_applyTo list {}⟩ rfl

/-- Records are read one behind the other, whatever ones are done before them. -/
theorem reads_records (limits : Limits) (count : Nat) (done : Array Record) :
    Reads (records limits count done) (fun result word => ∃ batch : List (List Entry),
      batch.length = count ∧ Words RecordWord batch word ∧
        (∀ list ∈ batch, ∀ entry ∈ list, entry.Within limits) ∧
          done.toList ++ batch.map Record.ofEntries = result) := by
  induction count generalizing done with
  | zero =>
      refine (reads_pure done.toList).of_iff fun result word => ?_
      constructor
      · rintro ⟨rfl, rfl⟩
        exact ⟨[], rfl, .nil, by simp, List.append_nil _⟩
      · rintro ⟨batch, hLength, hWords, -, rfl⟩
        rw [List.eq_nil_of_length_eq_zero hLength] at hWords ⊢
        cases hWords
        exact ⟨List.append_nil _, rfl⟩
  | succ others ih =>
      rw [records_succ]
      refine ((reads_record limits).mapError.bind _ fun next => ih (done.push next)).of_iff
        fun result word => ?_
      constructor
      · rintro ⟨_, front, back, ⟨list, hRecord, hWithin, rfl⟩, ⟨batch, rfl, hWords, hOthers, rfl⟩, rfl⟩
        refine ⟨list :: batch, rfl, .cons hRecord hWords, List.forall_mem_cons.mpr ⟨hWithin, hOthers⟩, ?_⟩
        simp
      · rintro ⟨batch, hLength, hWords, hWithin, rfl⟩
        cases hWords with
        | nil => cases hLength
        | cons hRecord hWords =>
            obtain ⟨hFirst, hOthers⟩ := List.forall_mem_cons.mp hWithin
            exact ⟨_, _, _, ⟨_, hRecord, hFirst, rfl⟩,
              ⟨_, Nat.succ.inj hLength, hWords, hOthers, by simp⟩, rfl⟩

theorem reads_recordCount (limits : Limits) : Reads (recordCount limits) (fun count word =>
    ArrayHeader count word ∧ count ≤ limits.maxRecords.toNat) := by
  refine ((reads_reading _ reads_arrayHeader).bind (fun declared count word =>
    declared ≤ limits.maxRecords.toNat ∧ count = declared ∧ word = []) fun declared => ?_).of_iff
    fun count word => ?_
  · split
    · next hMany =>
        exact (reads_throw _).of_iff fun count word => by simp [Nat.not_le.mpr hMany]
    · next hFew =>
        exact (reads_pure _).of_iff fun count word => by simp [Nat.le_of_not_lt hFew]
  · constructor
    · rintro ⟨declared, header, back, hHeader, ⟨hLimit, rfl, rfl⟩, rfl⟩
      rw [List.append_nil]
      exact ⟨hHeader, hLimit⟩
    · rintro ⟨hHeader, hLimit⟩
      exact ⟨count, word, [], hHeader, ⟨hLimit, rfl, rfl⟩, (List.append_nil _).symm⟩

/-- Behind a header within the limit, of whatever width, stand the records. -/
theorem leading_of_header {count : Nat} {header : Bytes} {input rest : Input}
    (hHeader : ArrayHeader count header) (hCount : count ≤ limits.maxRecords.toNat)
    (hInput : input.bytes = header ++ rest.bytes) :
    leading limits input = records limits count #[] rest := by
  rw [leading]
  exact bind_ok ((reads_recordCount limits).mapError.ok ⟨hHeader, hCount⟩ hInput)

/-- A batch is read from the front of the input exactly as the grammar and the limits have it. -/
theorem reads_leading (limits : Limits) : Reads (leading limits) (fun result word =>
    ∃ batch, BatchWord batch word ∧ batch.length ≤ limits.maxRecords.toNat ∧
      (∀ list ∈ batch, ∀ entry ∈ list, entry.Within limits) ∧
        batch.map Record.ofEntries = result) := by
  refine ((reads_recordCount limits).mapError.bind _ fun count => reads_records limits count #[]).of_iff
    fun result word => ?_
  constructor
  · rintro ⟨_, header, body, ⟨hHeader, hLimit⟩, ⟨batch, rfl, hBody, hWithin, rfl⟩, rfl⟩
    exact ⟨batch, ⟨hHeader, hBody⟩, hLimit, hWithin, rfl⟩
  · rintro ⟨batch, ⟨hHeader, hBody⟩, hLimit, hWithin, rfl⟩
    exact ⟨_, _, _, ⟨hHeader, hLimit⟩, ⟨batch, rfl, hBody, hWithin, rfl⟩, rfl⟩

/-- The three ways in which the reading of a batch can end. -/
theorem leading_cases (limits : Limits) (data : Bytes) :
    (∃ error, leading limits (Input.ofBytes data) = .error error) ∨
      (∃ result rest, leading limits (Input.ofBytes data) = .ok (result, rest) ∧
        (rest.bytes = [] ∨ limits.allowTrailing)) ∨
      ∃ result rest, leading limits (Input.ofBytes data) = .ok (result, rest) ∧ rest.bytes ≠ [] ∧
        limits.allowTrailing = false := by
  cases hLeading : leading limits (Input.ofBytes data) with
  | error error => exact Or.inl ⟨error, rfl⟩
  | ok outcome =>
      obtain ⟨result, rest⟩ := outcome
      by_cases hTail : rest.bytes = [] ∨ limits.allowTrailing = true
      · exact Or.inr (Or.inl ⟨result, rest, rfl, hTail⟩)
      · obtain ⟨hLeft, hAllow⟩ := not_or.mp hTail
        exact Or.inr (Or.inr ⟨result, rest, rfl, hLeft, eq_false_of_ne_true hAllow⟩)

/-- The data is accepted when a batch stands at its front and what is left is allowed. -/
theorem decode_eq_ok_iff_leading {data : Bytes} {result : List Record} :
    decode limits data = .ok result ↔ ∃ rest,
      leading limits (Input.ofBytes data) = .ok (result, rest) ∧
        (rest.bytes = [] ∨ limits.allowTrailing) := by
  constructor
  · intro h
    rcases leading_cases limits data with ⟨error, hLeading⟩ | ⟨own, rest, hLeading, hTail⟩ |
      ⟨own, rest, hLeading, hLeft, hStrict⟩
    · rw [decode_of_leading_error hLeading] at h
      cases h
    · rw [decode_of_leading hLeading hTail] at h
      cases h
      exact ⟨rest, hLeading, hTail⟩
    · rw [decode_of_leading_trailing hLeading hLeft hStrict] at h
      cases h
  · rintro ⟨rest, hLeading, hTail⟩
    exact decode_of_leading hLeading hTail

/-- The data is refused where no batch stands at its front, or where what is left is not allowed. -/
theorem decode_eq_error_iff_leading {data : Bytes} {error : DecodeError} :
    decode limits data = .error error ↔ leading limits (Input.ofBytes data) = .error error ∨
      ∃ result rest, leading limits (Input.ofBytes data) = .ok (result, rest) ∧ rest.bytes ≠ [] ∧
        limits.allowTrailing = false ∧
          error = ⟨⟨.batch, .trailingBytes rest.bytes.length⟩, none⟩ := by
  constructor
  · intro h
    rcases leading_cases limits data with ⟨own, hLeading⟩ | ⟨result, rest, hLeading, hTail⟩ |
      ⟨result, rest, hLeading, hLeft, hStrict⟩
    · rw [decode_of_leading_error hLeading] at h
      cases h
      exact Or.inl hLeading
    · rw [decode_of_leading hLeading hTail] at h
      cases h
    · rw [decode_of_leading_trailing hLeading hLeft hStrict] at h
      cases h
      exact Or.inr ⟨result, rest, hLeading, hLeft, hStrict, rfl⟩
  · rintro (hLeading | ⟨result, rest, hLeading, hLeft, hStrict, rfl⟩)
    · exact decode_of_leading_error hLeading
    · exact decode_of_leading_trailing hLeading hLeft hStrict

end Batch

end BlockFeed
