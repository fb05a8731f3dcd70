import BlockFeed.Proofs.MessagePack.Grammar
import BlockFeed.Batch.Record
import BlockFeed.Batch.Limits

/-! The batch format as a grammar, and what its words mean. A word is a list of records, and each
of these a list of entries, kept in the order and the number in which they are written. -/

namespace BlockFeed

open MessagePack

/-- An entry of a record. Of an unknown entry only the name is kept. -/
inductive Entry where
  | height (value : Int64)
  | block (payload : Bytes)
  | unknown (key : Bytes)

namespace Entry

/-- The height that an entry gives. -/
def height? : Entry → Option Int64
  | height value => some value
  | _ => none

/-- The block that an entry gives. -/
def block? : Entry → Option Bytes
  | block payload => some payload
  | _ => none

/-- An entry whose block, if it gives one, is not too long for the limits. -/
def Within (limits : Limits) (entry : Entry) : Prop :=
  ∀ payload, entry.block? = some payload → payload.length ≤ limits.maxBlockSize.toNat

theorem within_iff (limits : Limits) (list : List Entry) :
    (∀ entry ∈ list, entry.Within limits) ↔ ∀ payload, Entry.block payload ∈ list →
      payload.length ≤ limits.maxBlockSize.toNat := by
  constructor
  · intro h payload hMem
    exact h _ hMem payload rfl
  · intro h entry hMem payload hBlock
    cases entry with
    | block =>
        cases hBlock
        exact h payload hMem
    | _ => cases hBlock

end Entry

/-- The record that entries describe: of each field the last entry counts, and a field without an
entry has its default. -/
def Record.ofEntries (entries : List Entry) : Record where
  height := (entries.filterMap Entry.height?).getLastD 0
  block := (entries.filterMap Entry.block?).getLastD []

/-- A list of entries falls apart at the last block in it. -/
theorem Entry.last_block_or_none (list : List Entry) :
    (∃ before payload after, list = before ++ .block payload :: after ∧
      ∀ entry ∈ after, entry.block? = none) ∨ ∀ entry ∈ list, entry.block? = none := by
  induction list with
  | nil => exact Or.inr (by simp)
  | cons entry list ih =>
      rcases ih with ⟨before, payload, after, rfl, hAfter⟩ | hNone
      · exact Or.inl ⟨entry :: before, payload, after, rfl, hAfter⟩
      · cases entry with
        | block payload => exact Or.inl ⟨[], payload, list, rfl, hNone⟩
        | _ => exact Or.inr (List.forall_mem_cons.mpr ⟨rfl, hNone⟩)

namespace Record

/-- The block of a record is the last one written, and no other field depends on it. -/
theorem ofEntries_of_last_block {before after : List Entry}
    (hAfter : ∀ entry ∈ after, entry.block? = none) (payload : Bytes) :
    ofEntries (before ++ .block payload :: after) =
      { ofEntries (before ++ after) with block := payload } := by
  have hBlocks : after.filterMap Entry.block? = [] := List.filterMap_eq_nil_iff.mpr hAfter
  simp [ofEntries, Entry.height?, Entry.block?, hBlocks]

theorem block_ofEntries_of_none {list : List Entry} (hNone : ∀ entry ∈ list, entry.block? = none) :
    (ofEntries list).block = [] := by
  have hBlocks : list.filterMap Entry.block? = [] := List.filterMap_eq_nil_iff.mpr hNone
  rw [ofEntries, hBlocks]
  rfl

/-- The block of a record is one that is written in it, or empty. -/
theorem block_ofEntries_cases (list : List Entry) :
    (ofEntries list).block = [] ∨ Entry.block (ofEntries list).block ∈ list := by
  rcases Entry.last_block_or_none list with ⟨before, payload, after, rfl, hAfter⟩ | hNone
  · rw [ofEntries_of_last_block hAfter]
    exact Or.inr (List.mem_append_right before List.mem_cons_self)
  · exact Or.inl (block_ofEntries_of_none hNone)

end Record

/-- The value of an entry under its name: for the two fields an integer in the signed 64-bit range
and a binary payload, and under every other name a value of any kind. -/
inductive EntryValue : Bytes → Entry → Bytes → Prop where
  | height {value : Int64} {word : Bytes} (hValue : IntegerWord value.toInt word) :
      EntryValue Record.heightKey (.height value) word
  | block {payload word : Bytes} (hValue : BinaryWord payload word) :
      EntryValue Record.blockKey (.block payload) word
  | unknown {key word : Bytes} (hHeight : key ≠ Record.heightKey) (hBlock : key ≠ Record.blockKey)
      (hValue : ValueWord word) : EntryValue key (.unknown key) word

namespace EntryValue

variable {key word : Bytes} {entry : Entry}

theorem height_iff : EntryValue Record.heightKey entry word ↔
    ∃ value, entry = .height value ∧ IntegerWord value.toInt word := by
  constructor
  · intro h
    cases h with
    | height hValue => exact ⟨_, rfl, hValue⟩
    | unknown hHeight => exact absurd rfl hHeight
  · rintro ⟨value, rfl, hValue⟩
    exact .height hValue

theorem block_iff : EntryValue Record.blockKey entry word ↔
    ∃ payload, entry = .block payload ∧ BinaryWord payload word := by
  constructor
  · intro h
    cases h with
    | block hValue => exact ⟨_, rfl, hValue⟩
    | unknown _ hBlock => exact absurd rfl hBlock
  · rintro ⟨payload, rfl, hValue⟩
    exact .block hValue

theorem unknown_iff (hHeight : key ≠ Record.heightKey) (hBlock : key ≠ Record.blockKey) :
    EntryValue key entry word ↔ entry = .unknown key ∧ ValueWord word := by
  constructor
  · intro h
    cases h with
    | height => exact absurd rfl hHeight
    | block => exact absurd rfl hBlock
    | unknown _ _ hValue => exact ⟨rfl, hValue⟩
  · rintro ⟨rfl, hValue⟩
    exact .unknown hHeight hBlock hValue

theorem length_pos (h : EntryValue key entry word) : 0 < word.length := by
  cases h with
  | height hValue | block hValue | unknown _ _ hValue => exact hValue.length_pos

end EntryValue

/-- An entry is a name and its value. -/
inductive EntryWord (entry : Entry) : Bytes → Prop where
  | mk {key front back : Bytes} (hKey : KeyWord key front) (hValue : EntryValue key entry back) :
      EntryWord entry (front ++ back)

/-- A record is a map of entries. -/
inductive RecordWord (entries : List Entry) : Bytes → Prop where
  | mk {header body : Bytes} (hHeader : MapHeader entries.length header)
      (hBody : Words EntryWord entries body) : RecordWord entries (header ++ body)

/-- A batch is an array of records. -/
inductive BatchWord (batch : List (List Entry)) : Bytes → Prop where
  | mk {header body : Bytes} (hHeader : ArrayHeader batch.length header)
      (hBody : Words RecordWord batch body) : BatchWord batch (header ++ body)

theorem EntryWord.minEntrySize_le {entry : Entry} {word : Bytes} (h : EntryWord entry word) :
    Record.minEntrySize ≤ word.length := by
  obtain ⟨hKey, hValue⟩ := h
  have hFront := hKey.length_pos
  have hBack := hValue.length_pos
  rw [List.length_append, Record.minEntrySize]
  omega

theorem RecordWord.minSize_le {entries : List Entry} {word : Bytes} (h : RecordWord entries word) :
    Record.minSize ≤ word.length := by
  obtain ⟨hHeader, -⟩ := h
  have hFront := hHeader.length_pos
  rw [List.length_append, Record.minSize]
  omega

end BlockFeed
