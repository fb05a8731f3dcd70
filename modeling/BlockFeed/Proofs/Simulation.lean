import BlockFeed.Proofs.Reading

/-! Two readers on two inputs, run side by side. The second follows the first when it reads the same
values, and ends with the same error or with none that the first's is held to: some errors of the
first are tolerated and say nothing about the second. -/

namespace BlockFeed.Reader

variable {ε ε' α β : Type} {Related : Input → Input → Prop} {Tolerated : ε → Prop}

/-- The second outcome follows the first. -/
inductive Matches (Related : Input → Input → Prop) (Tolerated : ε → Prop) :
    Except ε (α × Input) → Except ε (α × Input) → Prop where
  | ok {value : α} {rest rest' : Input} (hRest : Related rest rest') :
      Matches Related Tolerated (.ok (value, rest)) (.ok (value, rest'))
  | error (error : ε) : Matches Related Tolerated (.error error) (.error error)
  | tolerated {error : ε} (hTolerated : Tolerated error) (outcome : Except ε (α × Input)) :
      Matches Related Tolerated (.error error) outcome

/-- The second reader follows the first on all related inputs. -/
def Follows (Related : Input → Input → Prop) (Tolerated : ε → Prop)
    (first second : Reader ε α) : Prop :=
  ∀ input input', Related input input' → Matches Related Tolerated (first input) (second input')

theorem Matches.bind {first first' : Reader ε α} {second second' : α → Reader ε β}
    {input input' : Input} (hHead : Matches Related Tolerated (first input) (first' input'))
    (hTail : ∀ value rest rest', first input = .ok (value, rest) → Related rest rest' →
      Matches Related Tolerated (second value rest) (second' value rest')) :
    Matches Related Tolerated ((first >>= second) input) ((first' >>= second') input') := by
  generalize hFirst : first input = outcome at hHead hTail
  generalize hSecond : first' input' = outcome' at hHead
  cases hHead with
  | ok hRest =>
      rw [bind_ok hFirst, bind_ok hSecond]
      exact hTail _ _ _ rfl hRest
  | error error =>
      rw [bind_error hFirst, bind_error hSecond]
      exact .error error
  | tolerated hTolerated =>
      rw [bind_error hFirst]
      exact .tolerated hTolerated _

theorem Follows.bind {first first' : Reader ε α} {second second' : α → Reader ε β}
    (hHead : Follows Related Tolerated first first')
    (hTail : ∀ value, Follows Related Tolerated (second value) (second' value)) :
    Follows Related Tolerated (first >>= second) (first' >>= second') :=
  fun input input' hInput => (hHead input input' hInput).bind
    fun value rest rest' _ hRest => hTail value rest rest' hRest

theorem follows_pure (value : α) :
    Follows Related Tolerated (pure value : Reader ε α) (pure value) :=
  fun _ _ hInput => .ok hInput

theorem follows_throw (error : ε) :
    Follows Related Tolerated (throw error : Reader ε α) (throw error) :=
  fun _ _ _ => .error error

/-- A reader on one input follows itself, so where two readers share a part there is nothing to show. -/
theorem follows_self (reader : Reader ε α) : Follows (· = ·) Tolerated reader reader := by
  rintro input _ rfl
  cases reader input with
  | ok outcome => exact .ok rfl
  | error error => exact .error error

theorem Follows.mapError {Tolerated' : ε' → Prop} {f : ε → ε'} {first second : Reader ε α}
    (hFollows : Follows Related Tolerated first second)
    (hTolerated : ∀ error, Tolerated error → Tolerated' (f error)) :
    Follows Related Tolerated' (mapError f first) (mapError f second) := by
  intro input input' hInput
  have h := hFollows input input' hInput
  simp only [Reader.mapError]
  generalize first input = outcome at h
  generalize second input' = outcome' at h
  cases h with
  | ok hRest => exact .ok hRest
  | error error => exact .error (f error)
  | tolerated hShort => exact .tolerated (hTolerated _ hShort) _

end BlockFeed.Reader
