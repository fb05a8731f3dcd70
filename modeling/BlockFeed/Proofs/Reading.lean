import BlockFeed.Bytes.Reader
import Mathlib.Algebra.Ring.Nat

/-! What a reader accepts, as a set of words. A reader reads the words of a value when it succeeds
exactly on the inputs that start with one of them and stops right behind it. Sequences of readers
read concatenations of words, and fail with the errors of their parts. -/

namespace BlockFeed

/-- Words for the items of a list, one behind the other. -/
inductive Words {α : Type} (Word : α → Bytes → Prop) : List α → Bytes → Prop where
  | nil : Words Word [] []
  | cons {x : α} {xs : List α} {word rest : Bytes}
      (hHead : Word x word) (hTail : Words Word xs rest) : Words Word (x :: xs) (word ++ rest)

namespace Words

variable {α : Type} {Word : α → Bytes → Prop} {xs : List α} {w : Bytes}

/-- Items of these sizes at least make their sum of bytes. -/
theorem sum_le_length {size : α → Nat} (h : Words Word xs w)
    (hSize : ∀ x word, Word x word → size x ≤ word.length) : (xs.map size).sum ≤ w.length := by
  induction h with
  | nil => simp
  | @cons x xs word rest hHead hTail ih =>
      have hHead := hSize x word hHead
      rw [List.map_cons, List.sum_cons, List.length_append]
      omega

/-- Items of at least `size` bytes each make at least `size` times as many bytes. -/
theorem mul_length_le {size : Nat} (h : Words Word xs w)
    (hSize : ∀ x word, Word x word → size ≤ word.length) : size * xs.length ≤ w.length := by
  have hSum : (xs.map fun _ => size).sum = size * xs.length := by
    rw [List.map_const', List.sum_replicate_nat, Nat.mul_comm]
  rw [← hSum]
  exact h.sum_le_length hSize

theorem exists_infix_of_mem {x : α} (h : Words Word xs w) (hMem : x ∈ xs) :
    ∃ word, Word x word ∧ word <:+: w := by
  induction h with
  | nil => cases hMem
  | @cons y xs word rest hHead hTail ih =>
      rcases List.mem_cons.mp hMem with rfl | hTail
      · exact ⟨word, hHead, (List.prefix_append word rest).isInfix⟩
      · obtain ⟨own, hOwn, hInfix⟩ := ih hTail
        exact ⟨own, hOwn, hInfix.trans (List.suffix_append word rest).isInfix⟩

theorem exists_of_mem {x : α} (h : Words Word xs w) (hMem : x ∈ xs) : ∃ word, Word x word := by
  obtain ⟨word, hWord, -⟩ := h.exists_infix_of_mem hMem
  exact ⟨word, hWord⟩

theorem mono {Word' : α → Bytes → Prop} (h : Words Word xs w)
    (hWord : ∀ x word, Word x word → Word' x word) : Words Word' xs w := by
  induction h with
  | nil => exact .nil
  | cons hHead hTail ih => exact .cons (hWord _ _ hHead) ih

theorem append {ys : List α} {v : Bytes} (h : Words Word xs w) (h' : Words Word ys v) :
    Words Word (xs ++ ys) (w ++ v) := by
  induction h with
  | nil => exact h'
  | cons hHead hTail ih =>
      rw [List.append_assoc]
      exact .cons hHead ih

theorem exists_of_append {ys : List α} (h : Words Word (xs ++ ys) w) :
    ∃ front back, Words Word xs front ∧ Words Word ys back ∧ w = front ++ back := by
  induction xs generalizing w with
  | nil => exact ⟨[], w, .nil, h, rfl⟩
  | cons x xs ih =>
      cases h with
      | cons hHead hTail =>
          obtain ⟨front, back, hFront, hBack, rfl⟩ := ih hTail
          exact ⟨_, back, .cons hHead hFront, hBack, (List.append_assoc _ _ _).symm⟩

theorem flatMap {β : Type} (item : β → α) (encode : β → Bytes) (list : List β)
    (h : ∀ y ∈ list, Word (item y) (encode y)) : Words Word (list.map item) (list.flatMap encode) := by
  induction list with
  | nil => exact Words.nil
  | cons y list ih =>
      rw [List.flatMap_cons]
      exact Words.cons (h y List.mem_cons_self) (ih fun z hMember => h z (List.mem_cons_of_mem y hMember))

end Words

namespace Reader

variable {ε ε' α β : Type}

/-- The reader succeeds exactly where a word of its value stands, and stops behind it. -/
def Reads (reader : Reader ε α) (Word : α → Bytes → Prop) : Prop :=
  ∀ (input rest : Input) (value : α), reader input = .ok (value, rest) ↔
    ∃ word, Word value word ∧ input.bytes = word ++ rest.bytes

variable {reader : Reader ε α} {Word Word' : α → Bytes → Prop}

theorem Reads.ok (hReads : Reads reader Word) {value : α} {word : Bytes} (hWord : Word value word)
    {input rest : Input} (hBytes : input.bytes = word ++ rest.bytes) :
    reader input = .ok (value, rest) :=
  (hReads input rest value).mpr ⟨word, hWord, hBytes⟩

/-- A reader takes at least as many bytes as its shortest word has. -/
theorem Reads.size_add_le (hReads : Reads reader Word) {size : Nat}
    (hSize : ∀ value word, Word value word → size ≤ word.length) {input rest : Input} {value : α}
    (h : reader input = .ok (value, rest)) : rest.size + size ≤ input.size := by
  obtain ⟨word, hWord, hInput⟩ := (hReads input rest value).mp h
  have hLe := hSize value word hWord
  rw [rest.size_eq, input.size_eq, hInput, List.length_append]
  omega

theorem Reads.suffix (hReads : Reads reader Word) {input rest : Input} {value : α}
    (h : reader input = .ok (value, rest)) : rest.bytes <:+ input.bytes := by
  obtain ⟨word, -, hInput⟩ := (hReads input rest value).mp h
  exact ⟨word, hInput.symm⟩

/-- A word is read in the same way whatever stands behind it. -/
theorem Reads.exists_word (hReads : Reads reader Word) {input rest : Input} {value : α}
    (h : reader input = .ok (value, rest)) : ∃ word, input.bytes = word ++ rest.bytes ∧
      ∀ tail, reader (Input.ofBytes (word ++ tail)) = .ok (value, Input.ofBytes tail) := by
  obtain ⟨word, hWord, hInput⟩ := (hReads input rest value).mp h
  exact ⟨word, hInput, fun tail => hReads.ok hWord rfl⟩

/-- Where a word ends does not depend on what stands behind it, and neither does what it says. -/
theorem Reads.append_inj (hReads : Reads reader Word) {value value' : α} {word word' : Bytes}
    (hWord : Word value word) (hWord' : Word value' word') {back back' : Bytes}
    (hSame : word ++ back = word' ++ back') : value = value' ∧ word = word' ∧ back = back' := by
  have hFirst : reader (Input.ofBytes (word ++ back)) = .ok (value, Input.ofBytes back) :=
    hReads.ok hWord rfl
  have hSecond : reader (Input.ofBytes (word ++ back)) = .ok (value', Input.ofBytes back') :=
    hReads.ok hWord' hSame
  rw [hSecond] at hFirst
  cases hFirst
  exact ⟨rfl, List.append_cancel_right hSame, rfl⟩

theorem Reads.of_iff (hReads : Reads reader Word) (h : ∀ value word, Word value word ↔ Word' value word) :
    Reads reader Word' := by
  intro input rest value
  rw [hReads input rest value]
  simp only [h]

theorem reads_pure (value : α) :
    Reads (pure value : Reader ε α) (fun result word => result = value ∧ word = []) := by
  intro input rest result
  rw [pure_eq_ok_iff]
  constructor
  · rintro ⟨rfl, rfl⟩
    exact ⟨[], ⟨rfl, rfl⟩, rfl⟩
  · rintro ⟨word, ⟨rfl, rfl⟩, hBytes⟩
    exact ⟨rfl, Input.eq_of_bytes_eq hBytes⟩

theorem reads_throw (error : ε) :
    Reads (throw error : Reader ε α) (fun _ _ => False) := by
  intro input rest result
  constructor
  · intro h
    cases h
  · rintro ⟨_, hNone, _⟩
    exact hNone.elim

theorem reads_byte (missing : ε) : Reads (byte missing) (fun value word => word = [value]) := by
  intro input rest value
  rw [byte_eq_ok_iff]
  simp

theorem reads_take (missing : ε) (count : Nat) :
    Reads (take missing count) (fun value word => word = value ∧ value.length = count) := by
  intro input rest value
  rw [take_eq_ok_iff]
  constructor
  · rintro ⟨hBytes, hLength⟩
    exact ⟨value, ⟨rfl, hLength⟩, hBytes⟩
  · rintro ⟨word, ⟨rfl, hLength⟩, hBytes⟩
    exact ⟨hBytes, hLength⟩

theorem bind_ok {first : Reader ε α} {second : α → Reader ε β} {input middle : Input} {value : α}
    (h : first input = .ok (value, middle)) : (first >>= second) input = second value middle := by
  simp only [bind, StateT.bind, Except.bind, h]

theorem bind_error {first : Reader ε α} {second : α → Reader ε β} {input : Input} {error : ε}
    (h : first input = .error error) : (first >>= second) input = .error error := by
  simp only [bind, StateT.bind, Except.bind, h]

theorem Reads.bind {first : Reader ε α} {second : α → Reader ε β} {Head : α → Bytes → Prop}
    (hHead : Reads first Head) (Tail : α → β → Bytes → Prop)
    (hTail : ∀ value, Reads (second value) (Tail value)) :
    Reads (first >>= second) (fun result word => ∃ value front back,
      Head value front ∧ Tail value result back ∧ word = front ++ back) := by
  intro input rest result
  rw [bind_eq_ok_iff]
  constructor
  · rintro ⟨value, middle, hStarted, hFinished⟩
    obtain ⟨front, hFront, hInput⟩ := (hHead input middle value).mp hStarted
    obtain ⟨back, hBack, hMiddle⟩ := (hTail value middle rest result).mp hFinished
    refine ⟨front ++ back, ⟨value, front, back, hFront, hBack, rfl⟩, ?_⟩
    rw [hInput, hMiddle, List.append_assoc]
  · rintro ⟨word, ⟨value, front, back, hFront, hBack, rfl⟩, hInput⟩
    have hMiddle : (Input.ofBytes (back ++ rest.bytes)).bytes = back ++ rest.bytes := rfl
    refine ⟨value, Input.ofBytes (back ++ rest.bytes), hHead.ok hFront ?_, (hTail value).ok hBack hMiddle⟩
    rw [hInput, hMiddle, List.append_assoc]

/-- A last step that reads nothing changes the value and not the words. -/
theorem Reads.bind_pure {f : α → β} (hReads : Reads reader Word) :
    Reads (reader >>= fun value => pure (f value))
      (fun result word => ∃ value, Word value word ∧ f value = result) := by
  refine (hReads.bind _ fun value => reads_pure (f value)).of_iff fun result word => ?_
  constructor
  · rintro ⟨value, front, back, hFront, ⟨rfl, rfl⟩, rfl⟩
    exact ⟨value, by simpa using hFront, rfl⟩
  · rintro ⟨value, hWord, rfl⟩
    exact ⟨value, word, [], hWord, ⟨rfl, rfl⟩, by simp⟩

theorem Reads.map {f : α → β} (hReads : Reads reader Word) :
    Reads (f <$> reader) (fun result word => ∃ value, Word value word ∧ f value = result) := by
  rw [map_eq_pure_bind]
  exact hReads.bind_pure

theorem Reads.mapError {f : ε → ε'} (hReads : Reads reader Word) :
    Reads (mapError f reader) Word := by
  intro input rest value
  rw [mapError_eq_ok_iff]
  exact hReads input rest value

theorem mapError_eq_error_iff {f : ε → ε'} {input : Input} {error : ε'} :
    Reader.mapError f reader input = .error error ↔ ∃ own, reader input = .error own ∧ f own = error := by
  rw [Reader.mapError]
  cases reader input <;> simp

/-- Every error of the reader is one of these. -/
def FailsOnly (reader : Reader ε α) (Error : ε → Prop) : Prop :=
  ∀ ⦃input error⦄, reader input = .error error → Error error

variable {Error : ε → Prop}

theorem failsOnly_pure (value : α) : FailsOnly (pure value : Reader ε α) Error := by
  intro input error h
  cases h

theorem failsOnly_throw {error : ε} (hError : Error error) :
    FailsOnly (throw error : Reader ε α) Error := by
  intro input _ h
  cases h
  exact hError

theorem FailsOnly.bind {first : Reader ε α} {second : α → Reader ε β} (hHead : FailsOnly first Error)
    (hTail : ∀ value, FailsOnly (second value) Error) : FailsOnly (first >>= second) Error := by
  intro input error h
  rcases bind_eq_error_iff.mp h with hFirst | ⟨value, middle, -, hSecond⟩
  · exact hHead hFirst
  · exact hTail value hSecond

theorem FailsOnly.mapError {Error' : ε' → Prop} {f : ε → ε'} (hFails : FailsOnly reader Error)
    (hError : ∀ error, Error error → Error' (f error)) : FailsOnly (mapError f reader) Error' := by
  intro input error h
  obtain ⟨own, hOwn, rfl⟩ := mapError_eq_error_iff.mp h
  exact hError own (hFails hOwn)

end Reader

end BlockFeed
