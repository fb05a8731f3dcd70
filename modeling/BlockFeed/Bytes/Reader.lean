import BlockFeed.Bytes.Input

/-! Readers of byte strings. A reader takes bytes from the front of its input and stops at the first
error. No reader built here gives bytes back, which bounds every loop by the input's size. -/

namespace BlockFeed

/-- A reader answers a value and what is left to read, or an error. -/
abbrev Reader (ε : Type) := StateT Input (Except ε)

namespace Reader

variable {ε ε' α β : Type}

/-- The next byte, or the given error when there is none. -/
def byte (missing : ε) : Reader ε UInt8 := fun input =>
  match input.next? with
  | some result => .ok result
  | none => .error missing

/-- The next `count` bytes, or the given error when there are fewer. -/
def take (missing : ε) (count : Nat) : Reader ε Bytes := fun input =>
  match input.take? count with
  | some result => .ok result
  | none => .error missing

/-- The number of bytes still to be read. -/
def remaining : Reader ε Nat := fun input => .ok (input.size, input)

/-- The same reader with its errors put in other terms. -/
def mapError (f : ε → ε') (reader : Reader ε α) : Reader ε' α := fun input =>
  match reader input with
  | .ok result => .ok result
  | .error error => .error (f error)

theorem pure_eq_ok_iff {value result : α} {input rest : Input} :
    (pure value : Reader ε α) input = .ok (result, rest) ↔ value = result ∧ input = rest := by
  constructor
  · intro hRead
    cases hRead
    exact ⟨rfl, rfl⟩
  · rintro ⟨rfl, rfl⟩
    rfl

/-- A sequence of two readers succeeds when each does, the second where the first stopped. -/
theorem bind_eq_ok_iff {first : Reader ε α} {second : α → Reader ε β} {input rest : Input}
    {result : β} :
    (first >>= second) input = .ok (result, rest) ↔
      ∃ value middle, first input = .ok (value, middle) ∧
        second value middle = .ok (result, rest) := by
  simp only [bind, StateT.bind, Except.bind]
  cases h : first input with
  | error error => simp
  | ok pair =>
      obtain ⟨value, middle⟩ := pair
      simp [and_assoc]

/-- A sequence of two readers fails where its first does, or where its second does after it. -/
theorem bind_eq_error_iff {first : Reader ε α} {second : α → Reader ε β} {input : Input}
    {error : ε} :
    (first >>= second) input = .error error ↔
      first input = .error error ∨
        ∃ value middle, first input = .ok (value, middle) ∧ second value middle = .error error := by
  simp only [bind, StateT.bind, Except.bind]
  cases h : first input with
  | error error => simp
  | ok pair =>
      obtain ⟨value, middle⟩ := pair
      simp [and_assoc]

theorem byte_eq_ok_iff {missing : ε} {input rest : Input} {value : UInt8} :
    byte missing input = .ok (value, rest) ↔ input.bytes = value :: rest.bytes := by
  rw [← Input.next?_eq_some_iff, byte]
  cases input.next? <;> simp

theorem take_eq_ok_iff {missing : ε} {count : Nat} {input rest : Input} {front : Bytes} :
    take missing count input = .ok (front, rest) ↔
      input.bytes = front ++ rest.bytes ∧ front.length = count := by
  rw [← Input.take?_eq_some_iff, take]
  cases input.take? count <;> simp

theorem mapError_eq_ok_iff {f : ε → ε'} {reader : Reader ε α} {input rest : Input} {value : α} :
    mapError f reader input = .ok (value, rest) ↔ reader input = .ok (value, rest) := by
  rw [mapError]
  cases reader input <;> simp

/-- A reader that never leaves more to read than it found. -/
def NonGrowing (reader : Reader ε α) : Prop :=
  ∀ ⦃input value rest⦄, reader input = .ok (value, rest) → rest.size ≤ input.size

/-- A reader that takes at least one byte whenever it succeeds. -/
def Advances (reader : Reader ε α) : Prop :=
  ∀ ⦃input value rest⦄, reader input = .ok (value, rest) → rest.size < input.size

theorem nonGrowing_pure (value : α) : NonGrowing (pure value : Reader ε α) := by
  intro input result rest hRead
  obtain ⟨-, rfl⟩ := pure_eq_ok_iff.mp hRead
  exact Nat.le_refl _

theorem nonGrowing_throw (error : ε) : NonGrowing (throw error : Reader ε α) := by
  intro input result rest hRead
  cases hRead

theorem advances_byte (missing : ε) : Advances (byte missing) := by
  intro input value rest hRead
  rw [input.size_eq, rest.size_eq, byte_eq_ok_iff.mp hRead]
  simp

theorem nonGrowing_take (missing : ε) (count : Nat) : NonGrowing (take missing count) := by
  intro input value rest hRead
  rw [input.size_eq, rest.size_eq, (take_eq_ok_iff.mp hRead).1]
  simp

theorem NonGrowing.bind {first : Reader ε α} {second : α → Reader ε β} (hHead : NonGrowing first)
    (hTail : ∀ value, NonGrowing (second value)) : NonGrowing (first >>= second) := by
  intro input result rest hRead
  obtain ⟨value, middle, hStarted, hFinished⟩ := bind_eq_ok_iff.mp hRead
  exact Nat.le_trans (hTail value hFinished) (hHead hStarted)

theorem Advances.bind {first : Reader ε α} {second : α → Reader ε β} (hHead : Advances first)
    (hTail : ∀ value, NonGrowing (second value)) : Advances (first >>= second) := by
  intro input result rest hRead
  obtain ⟨value, middle, hStarted, hFinished⟩ := bind_eq_ok_iff.mp hRead
  exact Nat.lt_of_le_of_lt (hTail value hFinished) (hHead hStarted)

end Reader

end BlockFeed
