import BlockFeed.Proofs.Batch.Acceptance

/-! Where the reading of a batch fails. An error of the whole is the error of one of its parts, read
behind those that were read before it, and it is told apart from theirs by the record that it names. -/

namespace BlockFeed.Batch

open MessagePack Reader

variable {limits : Limits} {input : Input}

/-- A part of a record is not read: the header, a name, or a value. -/
inductive PartFails (limits : Limits) (input : Input) (error : FieldError) : Prop where
  | count (h : entryCount input = .error error)
  | key (h : reading .key text input = .error error)
  | height (h : reading .height int64 input = .error error)
  | block (h : block limits input = .error error)
  | unknown (h : reading .unknown skip input = .error error)

theorem exists_part_of_entry_error {record : Record} {error : FieldError}
    (h : entry limits record input = .error error) :
    ∃ place, place.bytes <:+ input.bytes ∧ PartFails limits place error := by
  rcases bind_eq_error_iff.mp h with hKey | ⟨key, place, hKey, hValue⟩
  · exact ⟨input, List.suffix_rfl, .key hKey⟩
  · refine ⟨place, (reads_reading .key reads_text).suffix hKey, ?_⟩
    -- what is done with a value that is read does not fail
    split at hValue
    · rcases bind_eq_error_iff.mp hValue with hHeight | ⟨height, rest, -, hDone⟩
      · exact .height hHeight
      · cases hDone
    · split at hValue
      · rcases bind_eq_error_iff.mp hValue with hBlock | ⟨payload, rest, -, hDone⟩
        · exact .block hBlock
        · cases hDone
      · rcases bind_eq_error_iff.mp hValue with hSkip | ⟨skipped, rest, -, hDone⟩
        · exact .unknown hSkip
        · cases hDone

theorem exists_part_of_entries_error {count : Nat} {record : Record} {error : FieldError}
    (h : entries limits count record input = .error error) :
    ∃ place, place.bytes <:+ input.bytes ∧ PartFails limits place error := by
  induction count generalizing record input with
  | zero => cases h
  | succ others ih =>
      rw [entries_succ] at h
      rcases bind_eq_error_iff.mp h with hEntry | ⟨updated, rest, hEntry, hOthers⟩
      · exact exists_part_of_entry_error hEntry
      · obtain ⟨place, hPlace, hPart⟩ := ih hOthers
        exact ⟨place, hPlace.trans ((reads_entry limits record).suffix hEntry), hPart⟩

/-- A record is not read because a part of it is not. -/
theorem exists_part_of_record_error {error : FieldError} (h : record limits input = .error error) :
    ∃ place, place.bytes <:+ input.bytes ∧ PartFails limits place error := by
  rcases bind_eq_error_iff.mp h with hCount | ⟨count, rest, hCount, hEntries⟩
  · exact ⟨input, List.suffix_rfl, .count hCount⟩
  · obtain ⟨⟨header, -, hInput⟩, -⟩ := (entryCount_eq_ok_iff input rest count).mp hCount
    obtain ⟨place, hPlace, hPart⟩ := exists_part_of_entries_error hEntries
    exact ⟨place, hPlace.trans ⟨header, hInput.symm⟩, hPart⟩

/-- The loop fails with the error of a record that is not done, and names it. The records before it
have taken their bytes. -/
theorem exists_record_of_records_error {count : Nat} {done : Array Record} {error : DecodeError}
    (h : records limits count done input = .error error) :
    ∃ index place, error.record = some index ∧ done.size ≤ index ∧ index < done.size + count ∧
      index + place.size ≤ done.size + input.size ∧ place.bytes <:+ input.bytes ∧
        record limits place = .error error.toFieldError := by
  induction count generalizing done input with
  | zero => cases h
  | succ others ih =>
      rw [records_succ] at h
      rcases bind_eq_error_iff.mp h with hRecord | ⟨next, rest, hRecord, hOthers⟩
      · obtain ⟨own, hOwn, rfl⟩ := mapError_eq_error_iff.mp hRecord
        exact ⟨done.size, input, rfl, Nat.le_refl _, by omega, Nat.le_refl _, List.suffix_rfl, hOwn⟩
      · have hRead := mapError_eq_ok_iff.mp hRecord
        have hTaken : rest.size + Record.minSize ≤ input.size :=
          (reads_record limits).size_add_le (fun _ _ ⟨_, hWord, _⟩ => hWord.minSize_le) hRead
        obtain ⟨index, place, hIndex, hLower, hUpper, hSize, hPlace, hFails⟩ := ih hOthers
        rw [Array.size_push] at hLower hUpper hSize
        rw [Record.minSize] at hTaken
        exact ⟨index, place, hIndex, by omega, by omega, by omega,
          hPlace.trans ((reads_record limits).suffix hRead), hFails⟩

/-- A batch is not read because its header is not, or because one of its records is not. -/
theorem leading_eq_error {error : DecodeError} (h : leading limits input = .error error) :
    (error.record = none ∧ recordCount limits input = .error error.toFieldError) ∨
      ∃ count header rest, ArrayHeader count header ∧ count ≤ limits.maxRecords.toNat ∧
        input.bytes = header ++ rest.bytes ∧ records limits count #[] rest = .error error := by
  rcases bind_eq_error_iff.mp h with hCount | ⟨count, rest, hCount, hRecords⟩
  · obtain ⟨own, hOwn, rfl⟩ := mapError_eq_error_iff.mp hCount
    exact Or.inl ⟨rfl, hOwn⟩
  · obtain ⟨header, ⟨hHeader, hLimit⟩, hInput⟩ :=
      (reads_recordCount limits _ _ _).mp (mapError_eq_ok_iff.mp hCount)
    exact Or.inr ⟨count, header, rest, hHeader, hLimit, hInput, hRecords⟩

end BlockFeed.Batch
