import BlockFeed.Bytes.Endian

/-! The bytes that are still to be read, with their number at hand. Readers compare counts declared
by untrusted bytes with that number, so it is kept rather than counted again. -/

namespace BlockFeed

/-- Bytes still to be read, and how many there are. -/
@[ext]
structure Input where
  bytes : Bytes
  size : Nat
  size_eq : size = bytes.length

namespace Input

/-- All of a byte string, still to be read. -/
def ofBytes (bytes : Bytes) : Input := ⟨bytes, bytes.length, rfl⟩

/-- The first byte, and what stands after it. -/
def next? (input : Input) : Option (UInt8 × Input) :=
  match input with
  | ⟨[], _, _⟩ => none
  | ⟨byte :: rest, size, size_eq⟩ => some (byte, ⟨rest, size - 1, by simp [size_eq]⟩)

/-- The first `count` bytes, and what stands after them. -/
def take? (input : Input) (count : Nat) : Option (Bytes × Input) :=
  if count ≤ input.size then
    some (input.bytes.take count,
      ⟨input.bytes.drop count, input.size - count, by simp [input.size_eq]⟩)
  else
    none

@[simp] theorem bytes_ofBytes (bytes : Bytes) : (ofBytes bytes).bytes = bytes := rfl

@[simp] theorem size_ofBytes (bytes : Bytes) : (ofBytes bytes).size = bytes.length := rfl

/-- The count is settled by the bytes. -/
theorem eq_of_bytes_eq {first second : Input} (hSame : first.bytes = second.bytes) :
    first = second := by
  obtain ⟨bytes, size, rfl⟩ := first
  obtain ⟨bytes', size', rfl⟩ := second
  cases hSame
  rfl

@[simp] theorem ofBytes_bytes (input : Input) : ofBytes input.bytes = input :=
  eq_of_bytes_eq rfl

/-- A first byte is there exactly when the bytes start with it. -/
theorem next?_eq_some_iff {input rest : Input} {byte : UInt8} :
    input.next? = some (byte, rest) ↔ input.bytes = byte :: rest.bytes := by
  obtain ⟨bytes, size, rfl⟩ := input
  cases bytes with
  | nil => simp [next?]
  | cons head tail =>
      simp only [next?, Option.some.injEq, Prod.mk.injEq, List.cons.injEq]
      constructor
      · rintro ⟨rfl, rfl⟩
        exact ⟨rfl, rfl⟩
      · rintro ⟨rfl, hSame⟩
        exact ⟨rfl, eq_of_bytes_eq hSame⟩

theorem next?_eq_none_iff {input : Input} : input.next? = none ↔ input.bytes = [] := by
  obtain ⟨bytes, size, rfl⟩ := input
  cases bytes <;> simp [next?]

/-- Taking splits the bytes at the count asked for. -/
theorem take?_eq_some_iff {input rest : Input} {count : Nat} {front : Bytes} :
    input.take? count = some (front, rest) ↔
      input.bytes = front ++ rest.bytes ∧ front.length = count := by
  obtain ⟨bytes, size, rfl⟩ := input
  constructor
  · intro hTaken
    by_cases hEnough : count ≤ bytes.length
    · simp only [take?, hEnough, ↓reduceIte, Option.some.injEq, Prod.mk.injEq] at hTaken
      obtain ⟨rfl, rfl⟩ := hTaken
      simp [hEnough]
    · simp [take?, hEnough] at hTaken
  · rintro ⟨hSplit, rfl⟩
    have hEnough : front.length ≤ bytes.length := by
      rw [show bytes = front ++ rest.bytes from hSplit, List.length_append]
      omega
    simp only [take?, hEnough, ↓reduceIte, Option.some.injEq, Prod.mk.injEq]
    refine ⟨?_, eq_of_bytes_eq ?_⟩
    · rw [show bytes = front ++ rest.bytes from hSplit]
      simp
    · rw [show bytes = front ++ rest.bytes from hSplit]
      simp

theorem take?_eq_none_iff {input : Input} {count : Nat} :
    input.take? count = none ↔ input.bytes.length < count := by
  rw [← input.size_eq]
  simp [take?]

end Input

end BlockFeed
