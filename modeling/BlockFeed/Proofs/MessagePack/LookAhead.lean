import BlockFeed.Proofs.MessagePack.Values

/-! Reading past values with no test on how many are pending. A value takes at least a byte, so more
pending values than bytes are sure to run out of them, and the test only ever brings an error forward. -/

namespace BlockFeed

namespace Reader

variable {ε ε' α β : Type} {Early : ε → Prop}

/-- The first outcome is the second, or an early error where the second is some error as well. -/
inductive Anticipates (Early : ε → Prop) : Except ε α → Except ε α → Prop where
  | same (outcome : Except ε α) : Anticipates Early outcome outcome
  | early {error : ε} (hEarly : Early error) (error' : ε) :
      Anticipates Early (.error error) (.error error')

namespace Anticipates

variable {first second : Except ε α}

theorem ok_iff (h : Anticipates Early first second) (value : α) :
    first = .ok value ↔ second = .ok value := by
  cases h with
  | same => rfl
  | early => simp

theorem bind {f g : α → Except ε β} (h : Anticipates Early first second)
    (hNext : ∀ value, Anticipates Early (f value) (g value)) :
    Anticipates Early (first >>= f) (second >>= g) := by
  cases h with
  | same =>
      cases first with
      | ok value => exact hNext value
      | error error => exact .same _
  | early hEarly error' => exact .early hEarly error'

end Anticipates

/-- The first reader does what the second does, except that it may fail before the second fails. -/
def LooksAhead (Early : ε → Prop) (first second : Reader ε α) : Prop :=
  ∀ input, Anticipates Early (first input) (second input)

theorem looksAhead_self (reader : Reader ε α) : LooksAhead Early reader reader :=
  fun input => .same (reader input)

theorem LooksAhead.bind {first first' : Reader ε α} {second second' : α → Reader ε β}
    (hHead : LooksAhead Early first first')
    (hTail : ∀ value, LooksAhead Early (second value) (second' value)) :
    LooksAhead Early (first >>= second) (first' >>= second') :=
  fun input => (hHead input).bind fun outcome => hTail outcome.1 outcome.2

theorem LooksAhead.mapError {Early' : ε' → Prop} {f : ε → ε'} {first second : Reader ε α}
    (h : LooksAhead Early first second) (hEarly : ∀ error, Early error → Early' (f error)) :
    LooksAhead Early' (mapError f first) (mapError f second) := by
  intro input
  have hInput := h input
  simp only [Reader.mapError]
  generalize first input = outcome at hInput
  generalize second input = outcome' at hInput
  cases hInput with
  | same => exact .same _
  | early hError error' => exact .early (hEarly _ hError) (f error')

end Reader

namespace MessagePack

open Reader

/-- Reads past as many complete values as are pending, running into the end of the bytes where there
are too few of them. -/
def passValues (pending : Nat) (input : Input) : Except Fault (Unit × Input) :=
  match pending with
  | 0 => .ok ((), input)
  | others + 1 =>
      match _hRead : valueHead input with
      | .error fault => .error fault
      | .ok (inner, rest) => passValues (others + inner) rest
termination_by input.size
decreasing_by exact valueHead_advances _hRead

/-- Reads past one complete value. -/
def pass : Reader Fault Unit := passValues 1

theorem passValues_succ (others : Nat) (input : Input) : passValues (others + 1) input =
    (valueHead >>= fun inner => passValues (others + inner)) input := by
  rw [passValues]
  simp only [bind, StateT.bind, Except.bind]
  split <;> next hRead => rw [hRead]

/-- Each of the values takes at least a byte, those inside others included. -/
theorem size_add_le_of_passValues {pending : Nat} {input rest : Input} {value : Unit}
    (h : passValues pending input = .ok (value, rest)) : rest.size + pending ≤ input.size := by
  induction pending, input using passValues.induct with
  | case1 input =>
      rw [passValues] at h
      cases h
      exact Nat.le_refl _
  | case2 input others fault hRead =>
      rw [passValues_succ, bind_error hRead] at h
      cases h
  | case3 input others inner middle hRead ih =>
      rw [passValues_succ, bind_ok hRead] at h
      have hRest := ih h
      have hHead := valueHead_advances hRead
      omega

theorem looksAhead_skipValues (pending : Nat) :
    LooksAhead (· = .truncated) (skipValues pending) (passValues pending) := by
  intro input
  induction pending, input using skipValues.induct with
  | case1 input =>
      rw [skipValues, passValues]
      exact .same _
  | case2 input others hGuard =>
      rw [skipValues_succ, if_pos hGuard]
      cases hPass : passValues (others + 1) input with
      | error fault => exact .early (by rfl) fault
      | ok outcome =>
          have hSize := size_add_le_of_passValues hPass
          omega
  | case3 input others hGuard fault hRead =>
      rw [skipValues_succ, if_neg hGuard, passValues_succ, bind_error hRead, bind_error hRead]
      exact .same _
  | case4 input others hGuard inner middle hRead ih =>
      rw [skipValues_succ, if_neg hGuard, passValues_succ, bind_ok hRead, bind_ok hRead]
      exact ih

end MessagePack

end BlockFeed
