import BlockFeed.Proofs.MessagePack.Values
import BlockFeed.Batch.Decode

/-! Reading past a value of any kind. It takes no more rounds than there are bytes, and one; it ends
right behind the value; and it fails only where the bytes run out, or where the reserved byte stands in
the place of a value that is still awaited. -/

namespace BlockFeed

open Reader

namespace MessagePack

section Rounds

/-- Reads past the pending values in at most `rounds` rounds, each of which reads the head of one value.
Without an answer where the rounds are used up and values are pending. -/
def skipWithin (rounds pending : Nat) (input : Input) : Option (Except Fault (Unit × Input)) :=
  match pending, rounds with
  | 0, _ => some (.ok ((), input))
  | _ + 1, 0 => none
  | others + 1, rounds + 1 =>
      if input.size ≤ others then
        some (.error .truncated)
      else
        match valueHead input with
        | .error fault => some (.error fault)
        | .ok (inner, rest) => skipWithin rounds (others + inner) rest

/-- Each round but the last takes a byte, whatever it adds to the pending values. -/
theorem skipWithin_eq_some {rounds : Nat} (pending : Nat) {input : Input}
    (hRounds : input.size < rounds) :
    skipWithin rounds pending input = some (skipValues pending input) := by
  induction pending, input using skipValues.induct generalizing rounds with
  | case1 input => rw [skipWithin, skipValues]
  | case2 input others hGuard =>
      obtain ⟨rounds, rfl⟩ := Nat.exists_eq_add_one_of_ne_zero (Nat.ne_zero_of_lt hRounds)
      rw [skipWithin, if_pos hGuard, skipValues_succ, if_pos hGuard]
  | case3 input others hGuard fault hRead =>
      obtain ⟨rounds, rfl⟩ := Nat.exists_eq_add_one_of_ne_zero (Nat.ne_zero_of_lt hRounds)
      rw [skipWithin, if_neg hGuard, hRead, skipValues_succ, if_neg hGuard, bind_error hRead]
  | case4 input others hGuard inner rest hRead ih =>
      obtain ⟨rounds, rfl⟩ := Nat.exists_eq_add_one_of_ne_zero (Nat.ne_zero_of_lt hRounds)
      have hTaken := valueHead_advances hRead
      rw [skipWithin, if_neg hGuard, hRead, skipValues_succ, if_neg hGuard, bind_ok hRead]
      exact ih (by omega)

end Rounds

section Failures

theorem failsOnly_take (count : Nat) : FailsOnly (take Fault.truncated count) (· = .truncated) := by
  intro input fault h
  rw [take] at h
  split at h
  · cases h
  · cases h
    rfl

theorem failsOnly_marker : FailsOnly marker (· = .truncated) := by
  intro input fault h
  rw [marker, map_eq_pure_bind] at h
  rcases bind_eq_error_iff.mp h with hByte | ⟨value, middle, -, hPure⟩
  · rw [byte] at hByte
    split at hByte
    · cases hByte
    · cases hByte
      rfl
  · cases hPure

theorem CountField.failsOnly (field : CountField) : FailsOnly field.read (· = .truncated) := by
  cases field with
  | inMarker own => exact failsOnly_pure own
  | after width =>
      rw [CountField.read, unsigned, map_eq_pure_bind]
      exact (failsOnly_take width).bind fun bytes => failsOnly_pure _

theorem Layout.failsOnly (layout : Layout) : FailsOnly layout.read (· = .truncated) := by
  cases layout with
  | payload length extra =>
      exact length.failsOnly.bind fun count => (failsOnly_take _).bind fun _ => failsOnly_pure _
  | values count each => exact count.failsOnly.bind fun entries => failsOnly_pure _

theorem layout?_eq_none_iff (marker : Marker) : marker.layout? = none ↔ marker = .reserved := by
  cases marker <;> simp [Marker.layout?]

theorem valueHead_of_reserved {input : Input} {back : Bytes} (h : input.bytes = 0xc1 :: back) :
    valueHead input = .error .reserved := by
  have hMarker : marker input = .ok (.reserved, Input.ofBytes back) :=
    (reads_marker _ _ _).mpr ⟨[0xc1], rfl, h⟩
  rw [valueHead, bind_ok hMarker]
  rfl

/-- The head of a value is not read where there are too few bytes or the first is the reserved one. -/
theorem valueHead_eq_error {input : Input} {fault : Fault} (h : valueHead input = .error fault) :
    fault = .truncated ∨ fault = .reserved ∧ ∃ back, input.bytes = 0xc1 :: back := by
  rcases bind_eq_error_iff.mp h with hMarker | ⟨own, rest, hMarker, hLayout⟩
  · exact Or.inl (failsOnly_marker hMarker)
  · cases hOwn : own.layout? with
    | some layout =>
        rw [hOwn] at hLayout
        exact Or.inl (layout.failsOnly hLayout)
    | none =>
        rw [hOwn] at hLayout
        cases hLayout
        obtain ⟨word, rfl, hBytes⟩ := (reads_marker input rest own).mp hMarker
        obtain rfl : own = .reserved := (layout?_eq_none_iff own).mp hOwn
        exact Or.inr ⟨rfl, rest.bytes, hBytes⟩

theorem failsOnly_skipValues (pending : Nat) :
    FailsOnly (skipValues pending) (fun fault => fault = .truncated ∨ fault = .reserved) := by
  intro input fault h
  induction pending, input using skipValues.induct with
  | case1 input =>
      rw [skipValues] at h
      cases h
  | case2 input others hGuard =>
      rw [skipValues_succ, if_pos hGuard] at h
      cases h
      exact Or.inl rfl
  | case3 input others hGuard own hRead =>
      rw [skipValues_succ, if_neg hGuard, bind_error hRead] at h
      cases h
      exact (valueHead_eq_error hRead).imp_right And.left
  | case4 input others hGuard inner rest hRead ih =>
      rw [skipValues_succ, if_neg hGuard, bind_ok hRead] at h
      exact ih h

end Failures

section Awaiting

/-- The front of a value, up to a place where a value inside it is to start, with the number of values
that are awaited there. A container is awaited no more once its header stands, and as many values
as it holds are awaited instead. -/
inductive Awaits : Nat → Bytes → Prop where
  | whole : Awaits 1 []
  | value {others : Nat} {front word : Bytes} (h : Awaits (others + 1) front)
      (hValue : ValueWord word) : Awaits others (front ++ word)
  | array {others count : Nat} {front header : Bytes} (h : Awaits (others + 1) front)
      (hHeader : ArrayHeader count header) : Awaits (others + count) (front ++ header)
  | map {others count : Nat} {front header : Bytes} (h : Awaits (others + 1) front)
      (hHeader : MapHeader count header) : Awaits (others + 2 * count) (front ++ header)

theorem Awaits.head {others inner : Nat} {front head : Bytes} (h : Awaits (others + 1) front)
    (hHead : HeadWord inner head) : Awaits (others + inner) (front ++ head) := by
  obtain ⟨marker, layout, body, hLayout, hBody, rfl⟩ := hHead
  cases layout with
  | payload length extra =>
      obtain ⟨rfl, count, payload, hCarries, hLength, rfl⟩ := hBody
      exact h.value (ValueWord.of_payload hLayout hCarries hLength)
  | values count each =>
      obtain ⟨entries, hCarries, rfl, rfl⟩ := hBody
      cases marker with
      | fixarray | array =>
          cases hLayout
          rw [Nat.one_mul]
          exact h.array ((arrayCount?_tabulates.carried_iff _ _).mp ⟨_, _, rfl, hCarries, rfl⟩)
      | fixmap | map =>
          cases hLayout
          exact h.map ((mapCount?_tabulates.carried_iff _ _).mp ⟨_, _, rfl, hCarries, rfl⟩)
      | _ => cases hLayout

theorem ArrayHeader.headWord {count : Nat} {header : Bytes} (h : ArrayHeader count header) :
    HeadWord count header := by
  rw [← Nat.one_mul count]
  apply HeadWord.values _ ((arrayCount?_tabulates.carried_iff _ _).mpr h)
  intro marker field hField
  cases marker <;> cases hField <;> rfl

theorem MapHeader.headWord {count : Nat} {header : Bytes} (h : MapHeader count header) :
    HeadWord (2 * count) header := by
  apply HeadWord.values _ ((mapCount?_tabulates.carried_iff _ _).mpr h)
  intro marker field hField
  cases marker <;> cases hField <;> rfl

/-- A word has a byte for the value that it is or starts. -/
theorem others_lt_size {others : Nat} {word : Bytes} (hWord : 0 < word.length) {rest : Input}
    (hRoom : others ≤ rest.size) : others < (Input.ofBytes (word ++ rest.bytes)).size := by
  rw [Input.size_ofBytes, List.length_append, ← rest.size_eq]
  omega

/-- Reading the head of a value puts the values inside in the place of that value. -/
theorem skipValues_of_head {others inner : Nat} {head : Bytes} (hHead : HeadWord inner head)
    {rest : Input} (hRoom : others + inner ≤ rest.size) :
    skipValues (others + 1) (Input.ofBytes (head ++ rest.bytes)) =
      skipValues (others + inner) rest := by
  have hGuard := others_lt_size hHead.length_pos (Nat.le_of_add_right_le hRoom)
  rw [skipValues_succ, if_neg (Nat.not_le.mpr hGuard), bind_ok (reads_valueHead.ok hHead rfl)]

/-- The counter of pending values is the number of values that are awaited behind the bytes that are
read, as long as there is a byte for each of them. -/
theorem Awaits.skip_eq {awaited : Nat} {front : Bytes} (h : Awaits awaited front) (rest : Input)
    (hRoom : awaited ≤ rest.size) :
    skip (Input.ofBytes (front ++ rest.bytes)) = skipValues awaited rest := by
  induction h generalizing rest with
  | whole => rw [List.nil_append, Input.ofBytes_bytes, skip]
  | @value others front word _ hValue ih =>
      have hMiddle := others_lt_size hValue.length_pos hRoom
      rw [List.append_assoc]
      exact (ih _ hMiddle).trans (hValue.settles others _ rest rfl hRoom)
  | @array others count front header _ hHeader ih =>
      have hMiddle := others_lt_size hHeader.length_pos (Nat.le_of_add_right_le hRoom)
      rw [List.append_assoc]
      exact (ih _ hMiddle).trans (skipValues_of_head hHeader.headWord hRoom)
  | @map others count front header _ hHeader ih =>
      have hMiddle := others_lt_size hHeader.length_pos (Nat.le_of_add_right_le hRoom)
      rw [List.append_assoc]
      exact (ih _ hMiddle).trans (skipValues_of_head hHeader.headWord hRoom)

/-- A front and the values that it awaits are a value. -/
theorem Awaits.valueWord_append {awaited : Nat} {front tail : Bytes} (h : Awaits awaited front)
    (hTail : ValueWords awaited tail) : ValueWord (front ++ tail) := by
  have hRead : skip (Input.ofBytes (front ++ tail)) = .ok ((), Input.ofBytes []) := by
    rw [← Input.bytes_ofBytes tail, h.skip_eq (Input.ofBytes tail) hTail.le_length]
    exact (reads_skipValues awaited).ok hTail (List.append_nil tail).symm
  obtain ⟨word, hWord, hBytes⟩ := (reads_skip _ _ _).mp hRead
  rw [Input.bytes_ofBytes, Input.bytes_ofBytes, List.append_nil] at hBytes
  rw [hBytes]
  exact hWord

theorem exists_awaits_of_reserved {pending : Nat} {input : Input} {front : Bytes}
    (h : Awaits pending front) (hSkip : skipValues pending input = .error .reserved) :
    ∃ before others after, front ++ input.bytes = before ++ 0xc1 :: after ∧
      Awaits (others + 1) before ∧ others ≤ after.length := by
  induction pending, input using skipValues.induct generalizing front with
  | case1 input =>
      rw [skipValues] at hSkip
      cases hSkip
  | case2 input others hGuard =>
      rw [skipValues_succ, if_pos hGuard] at hSkip
      cases hSkip
  | case3 input others hGuard fault hRead =>
      rw [skipValues_succ, if_neg hGuard, bind_error hRead] at hSkip
      cases hSkip
      rcases valueHead_eq_error hRead with hTruncated | ⟨-, after, hBytes⟩
      · cases hTruncated
      · refine ⟨front, others, after, by rw [hBytes], h, ?_⟩
        rw [input.size_eq, hBytes, List.length_cons] at hGuard
        omega
  | case4 input others hGuard inner rest hRead ih =>
      rw [skipValues_succ, if_neg hGuard, bind_ok hRead] at hSkip
      obtain ⟨head, hHead, hInput⟩ := (reads_valueHead input rest inner).mp hRead
      obtain ⟨before, others', after, hBytes, hAwaits, hRoom⟩ := ih (h.head hHead) hSkip
      refine ⟨before, others', after, ?_, hAwaits, hRoom⟩
      rw [hInput, ← hBytes, List.append_assoc]

/-- The reserved byte is reported exactly where a value is awaited, unless more values are awaited
there than bytes are left. -/
theorem skip_eq_reserved_iff (input : Input) : skip input = .error .reserved ↔
    ∃ before others after, input.bytes = before ++ 0xc1 :: after ∧ Awaits (others + 1) before ∧
      others ≤ after.length := by
  constructor
  · intro h
    exact exists_awaits_of_reserved Awaits.whole h
  · intro h
    obtain ⟨before, others, after, hBytes, hAwaits, hRoom⟩ := h
    have hInput : input = Input.ofBytes (before ++ (Input.ofBytes (0xc1 :: after)).bytes) :=
      Input.eq_of_bytes_eq hBytes
    have hGuard : others < (Input.ofBytes (0xc1 :: after)).size := Nat.lt_succ_of_le hRoom
    rw [hInput, hAwaits.skip_eq _ hGuard, skipValues_succ, if_neg (Nat.not_le.mpr hGuard),
      bind_error (valueHead_of_reserved rfl)]

end Awaiting

section Place

/-- No more than one value starts at a place. -/
theorem ValueWord.eq_of_front {data word word' : Bytes} (hWord : ValueWord word)
    (hWord' : ValueWord word') (hFront : word <+: data) (hFront' : word' <+: data) : word = word' := by
  obtain ⟨tail, hTail⟩ := hFront
  obtain ⟨tail', hTail'⟩ := hFront'
  have hSame : () = () ∧ word = word' ∧ tail = tail' :=
    reads_skip.append_inj hWord hWord' (hTail.trans hTail'.symm)
  exact hSame.2.1

/-- Where a value starts, reading goes on as many bytes further as the value has. -/
theorem skip_drop_eq_ok_iff (data : Bytes) (start : Nat) (rest : Input) :
    skip (Input.ofBytes (data.drop start)) = .ok ((), rest) ↔
      ∃ word, ValueWord word ∧ word <+: data.drop start ∧
        rest = Input.ofBytes (data.drop (start + word.length)) := by
  rw [reads_skip, Input.bytes_ofBytes]
  constructor
  · intro h
    obtain ⟨word, hWord, hBytes⟩ := h
    refine ⟨word, hWord, ⟨rest.bytes, hBytes.symm⟩, ?_⟩
    rw [← List.drop_drop, hBytes, List.drop_left, Input.ofBytes_bytes]
  · intro h
    obtain ⟨word, hWord, ⟨tail, hTail⟩, rfl⟩ := h
    refine ⟨word, hWord, ?_⟩
    rw [Input.bytes_ofBytes, ← List.drop_drop, ← hTail, List.drop_left]

end Place

end MessagePack

namespace Batch

open MessagePack

theorem failsOnly_reading_skip (field : Field) : FailsOnly (reading field skip)
    (fun error => error = ⟨field, .fault .truncated⟩ ∨ error = ⟨field, .fault .reserved⟩) := by
  refine FailsOnly.mapError (failsOnly_skipValues 1) ?_
  intro fault hFault
  rcases hFault with rfl | rfl
  · exact Or.inl rfl
  · exact Or.inr rfl

/-- Reading past a value consumes exactly one. Wherever it starts, it takes at most one round more than
there are bytes. It succeeds exactly where a complete value stands, which is the only one there, and
goes on behind it. Otherwise the bytes run out, or the data is malformed for its reserved byte, which is
reported exactly where it stands in the place of a value that is awaited and no more values are awaited
than there are bytes. -/
theorem skip_one_value (data : Bytes) (start : Nat) (field : Field) :
    skipWithin ((data.length - start) + 1) 1 (Input.ofBytes (data.drop start)) =
      some (skip (Input.ofBytes (data.drop start))) ∧
    (∀ rest, reading field skip (Input.ofBytes (data.drop start)) = .ok ((), rest) ↔
      ∃ word, ValueWord word ∧ word <+: data.drop start ∧
        rest = Input.ofBytes (data.drop (start + word.length))) ∧
    (∀ word word', ValueWord word → ValueWord word' → word <+: data.drop start →
      word' <+: data.drop start → word = word') ∧
    (∀ error, reading field skip (Input.ofBytes (data.drop start)) = .error error →
      (error = ⟨field, .fault .truncated⟩ ∧ error.cause.kind = .truncated) ∨
      (error = ⟨field, .fault .reserved⟩ ∧ error.cause.kind = .malformed "reserved marker 0xc1")) ∧
    (reading field skip (Input.ofBytes (data.drop start)) = .error ⟨field, .fault .reserved⟩ ↔
      ∃ before others after, data.drop start = before ++ 0xc1 :: after ∧
        Awaits (others + 1) before ∧ others ≤ after.length) := by
  refine ⟨?_, ?_, ?_, ?_, ?_⟩
  · apply skipWithin_eq_some
    rw [Input.size_ofBytes, List.length_drop]
    exact Nat.lt_succ_self _
  · intro rest
    rw [reading, mapError_eq_ok_iff]
    exact skip_drop_eq_ok_iff data start rest
  · intro word word' hWord hWord' hFront hFront'
    exact hWord.eq_of_front hWord' hFront hFront'
  · intro error hError
    rcases failsOnly_reading_skip field hError with rfl | rfl
    · exact Or.inl ⟨rfl, rfl⟩
    · exact Or.inr ⟨rfl, rfl⟩
  · rw [← Input.bytes_ofBytes (data.drop start), ← skip_eq_reserved_iff, Input.bytes_ofBytes, reading,
      mapError]
    cases skip (Input.ofBytes (data.drop start)) with
    | ok outcome => simp
    | error fault => simp

end Batch

end BlockFeed
