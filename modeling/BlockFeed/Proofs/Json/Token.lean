import BlockFeed.Json.Token
import BlockFeed.Proofs.Json.Quoted
import Mathlib.Data.List.Chain

/-! The literals of tokens and the texts of token lists. `Token.Spells` is the grammar of single
tokens, and `Spelled` puts blanks around them. A text is scanned into the tokens it spells, unless a
number stands right before another one. -/

namespace BlockFeed.Json.Token

/-- Some digits. -/
def Run (run : List Char) : Prop := run ≠ [] ∧ ∀ c ∈ run, c.isDigit

/-- The digits before the point of a number. More than one do not start with a zero. -/
structure Whole (whole : List Char) : Prop where
  run : Run whole
  unpadded : whole.head? = some '0' → whole = ['0']

/-- The point of a number with the digits behind it, if it has one. -/
inductive FractionPart : List Char → Prop
  | absent : FractionPart []
  | present {run : List Char} (hDigits : Run run) : FractionPart ('.' :: run)

/-- The exponent of a number, if it has one. -/
inductive ExponentPart : List Char → Prop
  | absent : ExponentPart []
  | present {mark : Char} {sign run : List Char} (hMarked : mark = 'e' ∨ mark = 'E')
      (hSigned : sign = [] ∨ sign = ['+'] ∨ sign = ['-']) (hDigits : Run run) :
      ExponentPart (mark :: (sign ++ run))

/-- The literals of numbers. An integer has one literal, and what is written with a fraction, with
an exponent or as a negative zero is not an integer. -/
inductive NumberSpells : Token → List Char → Prop
  | natural (value : Nat) : NumberSpells (integer value) (digits value)
  | negative (value : Nat) (hPositive : 0 < value) :
      NumberSpells (integer (-value)) ('-' :: digits value)
  | fraction {sign whole fractional exponential : List Char} (hSigned : sign = [] ∨ sign = ['-'])
      (hBefore : Whole whole) (hBehind : FractionPart fractional) (hScaled : ExponentPart exponential)
      (hNoInteger : fractional ≠ [] ∨ exponential ≠ [] ∨ sign = ['-'] ∧ whole = ['0']) :
      NumberSpells fraction (sign ++ (whole ++ (fractional ++ exponential)))

/-- The literals of tokens. -/
inductive Spells : Token → List Char → Prop
  | openBracket : Spells openBracket ['[']
  | closeBracket : Spells closeBracket [']']
  | openBrace : Spells openBrace ['\x7b']
  | closeBrace : Spells closeBrace ['\x7d']
  | colon : Spells colon [':']
  | comma : Spells comma [',']
  | null : Spells null ['n', 'u', 'l', 'l']
  | boolTrue : Spells (bool true) ['t', 'r', 'u', 'e']
  | boolFalse : Spells (bool false) ['f', 'a', 'l', 's', 'e']
  | number {token : Token} {literal : List Char} (hSpells : NumberSpells token literal) :
      Spells token literal
  | string {pieces : List Quoted.Piece} {body : List Char} (hSpells : Quoted.Spells pieces body) :
      Spells (string (Quoted.joined? pieces)) ('"' :: (body ++ ['"']))

/-- Whether a token is a number. -/
def isNumber : Token → Bool
  | integer _ => true
  | fraction => true
  | _ => false

/-- Characters that only blanks are among. -/
def Blanks (blanks : List Char) : Prop := ∀ c ∈ blanks, isBlank c

/-- A text spells tokens with blanks anywhere between them. -/
inductive Spelled : List Token → List Char → Prop
  | nil {blanks : List Char} (hBlank : Blanks blanks) : Spelled [] blanks
  | cons {blanks literal rest : List Char} {token : Token} {tokens : List Token}
      (hBlank : Blanks blanks) (hFirst : token.Spells literal) (hBehind : Spelled tokens rest) :
      Spelled (token :: tokens) (blanks ++ (literal ++ rest))

section Numbers

/-- A text that does not go on with a digit. -/
def EndsRun (rest : List Char) : Prop := ∀ c ∈ rest.head?, c.isDigit = false

/-- A character that no number goes on with. -/
def EndsNumberAt (c : Char) : Prop := c.isDigit = false ∧ c ≠ '.' ∧ c ≠ 'e' ∧ c ≠ 'E'

/-- A text that does not go on with anything that a number may go on with. -/
def EndsNumber (rest : List Char) : Prop := ∀ c ∈ rest.head?, EndsNumberAt c

theorem EndsNumber.endsRun {rest : List Char} (hEnds : EndsNumber rest) : EndsRun rest :=
  fun c hFirst => (hEnds c hFirst).1

theorem takeWhile_of_run {run rest : List Char} (hDigits : Run run) (hEnds : EndsRun rest) :
    (run ++ rest).takeWhile Char.isDigit = run := by
  rw [List.takeWhile_append_of_pos hDigits.2]
  cases rest with
  | nil => simp
  | cons c rest => simp [hEnds c rfl]

theorem dropWhile_of_run {run rest : List Char} (hDigits : Run run) (hEnds : EndsRun rest) :
    (run ++ rest).dropWhile Char.isDigit = rest := by
  rw [List.dropWhile_append_of_pos hDigits.2]
  cases rest with
  | nil => simp
  | cons c rest => simp [hEnds c rfl]

/-- Digits start with a digit. -/
theorem Run.exists_cons {run : List Char} (hDigits : Run run) :
    ∃ c rest, run = c :: rest ∧ c.isDigit := by
  cases run with
  | nil => exact absurd rfl hDigits.1
  | cons c rest => exact ⟨c, rest, rfl, hDigits.2 c (by simp)⟩

theorem fractionPart?_append {part rest : List Char} (hBehind : FractionPart part)
    (hEnds : EndsRun rest) (hNoPoint : rest.head? ≠ some '.') :
    fractionPart? (part ++ rest) = some (!part.isEmpty, rest) := by
  cases hBehind with
  | absent =>
      cases rest with
      | nil => simp [fractionPart?]
      | cons c rest =>
          have hOther : c ≠ '.' := by simpa using hNoPoint
          simp [fractionPart?, hOther]
  | present hDigits =>
      simp [fractionPart?, takeWhile_of_run hDigits hEnds, dropWhile_of_run hDigits hEnds, hDigits.1]

theorem ne_of_isDigit {c other : Char} (hDigit : c.isDigit) (hNoDigit : other.isDigit = false) :
    c ≠ other := by
  intro hSame
  simp [hSame, hNoDigit] at hDigit

theorem afterSign_append {sign run : List Char} (hSigned : sign = [] ∨ sign = ['+'] ∨ sign = ['-'])
    (hDigits : Run run) (rest : List Char) : afterSign (sign ++ (run ++ rest)) = run ++ rest := by
  obtain rfl | rfl | rfl := hSigned
  · obtain ⟨c, tail, rfl, hDigit⟩ := hDigits.exists_cons
    simp [afterSign, ne_of_isDigit hDigit]
  · simp [afterSign]
  · simp [afterSign]

theorem exponentPart?_append {part rest : List Char} (hScaled : ExponentPart part)
    (hEnds : EndsNumber rest) : exponentPart? (part ++ rest) = some (!part.isEmpty, rest) := by
  cases hScaled with
  | absent =>
      cases rest with
      | nil => simp [exponentPart?]
      | cons c rest =>
          have hOther := hEnds c rfl
          simp [exponentPart?, hOther.2.2]
  | present hMarked hSigned hDigits =>
      simp [exponentPart?, hMarked, afterSign_append hSigned hDigits,
        takeWhile_of_run hDigits hEnds.endsRun, dropWhile_of_run hDigits hEnds.endsRun, hDigits.1]

/-- What a number goes on with ends its digits. -/
theorem ExponentPart.endsRun {part rest : List Char} (hScaled : ExponentPart part)
    (hEnds : EndsNumber rest) :
    EndsRun (part ++ rest) ∧ (part ++ rest).head? ≠ some '.' := by
  cases hScaled with
  | absent =>
      refine ⟨hEnds.endsRun, fun hPoint => ?_⟩
      exact (hEnds '.' hPoint).2.1 rfl
  | present hMarked _ _ => obtain rfl | rfl := hMarked <;> simp [EndsRun]

theorem FractionPart.endsRun {part rest : List Char} (hBehind : FractionPart part)
    (hEnds : EndsRun rest) : EndsRun (part ++ rest) := by
  cases hBehind with
  | absent => exact hEnds
  | present _ => simp [EndsRun]

/-- A number is read as far as it goes. -/
theorem magnitude?_append {whole fractional exponential rest : List Char} (negative : Bool)
    (hBefore : Whole whole) (hBehind : FractionPart fractional) (hScaled : ExponentPart exponential)
    (hEnds : EndsNumber rest) :
    magnitude? negative (whole ++ (fractional ++ (exponential ++ rest))) =
      some (
        if fractional ≠ [] ∨ exponential ≠ [] ∨ negative ∧ Nat.ofDigitChars 10 whole 0 = 0 then
          fraction
        else if negative then integer (-Nat.ofDigitChars 10 whole 0)
        else integer (Nat.ofDigitChars 10 whole 0), rest) := by
  obtain ⟨hEndsFraction, hNoPoint⟩ := hScaled.endsRun hEnds
  have hEndsWhole := hBehind.endsRun hEndsFraction
  have hWellFormed : ¬ (whole = [] ∨ whole.head? = some '0' ∧ whole ≠ ['0']) := by
    rintro (hEmpty | ⟨hZero, hMore⟩)
    · exact hBefore.run.1 hEmpty
    · exact hMore (hBefore.unpadded hZero)
  simp only [magnitude?, takeWhile_of_run hBefore.run hEndsWhole,
    dropWhile_of_run hBefore.run hEndsWhole, if_neg hWellFormed,
    fractionPart?_append hBehind hEndsFraction hNoPoint, exponentPart?_append hScaled hEnds,
    Option.bind_eq_bind, Option.bind_some, Bool.not_eq_true', List.isEmpty_eq_false_iff,
    Option.pure_def]
  split
  · rfl
  · split <;> rfl

@[simp] theorem ofDigitChars_digits (value : Nat) :
    Nat.ofDigitChars 10 (digits value) 0 = value := Nat.ofDigitChars_ten_toDigits

/-- The digits of a number do not start with a zero, but for those of zero itself. -/
theorem whole_digits (value : Nat) : Whole (digits value) where
  run := ⟨Nat.toDigits_ne_nil, fun _ => Nat.isDigit_of_mem_toDigits (by decide) (by decide)⟩
  unpadded := by
    induction value using Nat.strongRecOn with
    | ind value ih =>
        intro hPadded
        rw [digits, Nat.toDigits_eq_if (by decide)] at hPadded ⊢
        split at hPadded
        · rename_i hSmall
          have hSingle : ∀ value < 10, Nat.digitChar value = '0' → value = 0 := by decide
          have hZero := hSingle value hSmall (by simpa using hPadded)
          simp [hZero]
        · -- The digits before the last one are those of a number that is not zero.
          obtain ⟨c, tail, hFront⟩ := List.exists_cons_of_ne_nil
            (Nat.toDigits_ne_nil : Nat.toDigits 10 (value / 10) ≠ [])
          have hSingle := ih (value / 10) (by omega) (by simpa [digits, hFront] using hPadded)
          have hSame := ofDigitChars_digits (value / 10)
          rw [hSingle] at hSame
          have hZero : 0 = value / 10 := hSame
          omega

/-- A number starts with a minus sign or a digit. -/
theorem NumberSpells.exists_cons {token : Token} {literal : List Char}
    (hSpells : NumberSpells token literal) :
    ∃ c rest, literal = c :: rest ∧ (c = '-' ∨ c.isDigit) := by
  cases hSpells with
  | natural value =>
      obtain ⟨c, rest, hSame, hDigit⟩ := (whole_digits value).run.exists_cons
      exact ⟨c, rest, hSame, .inr hDigit⟩
  | negative value _ => exact ⟨'-', digits value, rfl, .inl rfl⟩
  | @fraction sign whole fractional exponential hSigned hBefore _ _ _ =>
      obtain ⟨c, rest, hSame, hDigit⟩ := hBefore.run.exists_cons
      obtain rfl | rfl := hSigned
      · exact ⟨c, _, by rw [hSame]; rfl, .inr hDigit⟩
      · exact ⟨'-', _, rfl, .inl rfl⟩

theorem number?_of_run {run : List Char} (hDigits : Run run) (rest : List Char) :
    number? (run ++ rest) = magnitude? false (run ++ rest) := by
  obtain ⟨c, tail, rfl, hDigit⟩ := hDigits.exists_cons
  simp [number?, ne_of_isDigit hDigit]

/-- Whatever a number stands for, it is read as that. -/
theorem number?_of_spells {token : Token} {literal rest : List Char}
    (hSpells : NumberSpells token literal) (hEnds : EndsNumber rest) :
    number? (literal ++ rest) = some (token, rest) := by
  cases hSpells with
  | natural value =>
      have hWhole := whole_digits value
      have hRead := magnitude?_append false hWhole .absent .absent hEnds
      rw [number?_of_run hWhole.run]
      simpa using hRead
  | negative value hPositive =>
      have hRead := magnitude?_append true (whole_digits value) .absent .absent hEnds
      simpa [number?, Nat.ne_of_gt hPositive] using hRead
  | @fraction sign whole fractional exponential hSigned hBefore hBehind hScaled hNoInteger =>
      obtain rfl | rfl := hSigned
      · have hRead := magnitude?_append false hBefore hBehind hScaled hEnds
        have hParts : fractional ≠ [] ∨ exponential ≠ [] := by simpa using hNoInteger
        have hValue := number?_of_run hBefore.run (fractional ++ (exponential ++ rest))
        simp only [List.nil_append, List.append_assoc, hValue, hRead]
        simp [hParts]
      · have hRead := magnitude?_append true hBefore hBehind hScaled hEnds
        have hParts : fractional ≠ [] ∨ exponential ≠ [] ∨
            (true : Bool) = true ∧ Nat.ofDigitChars 10 whole 0 = 0 := by
          obtain hBehind | hScaled | ⟨-, hZero⟩ := hNoInteger
          · exact .inl hBehind
          · exact .inr (.inl hScaled)
          · exact .inr (.inr ⟨rfl, by rw [hZero]; rfl⟩)
        rw [if_pos hParts] at hRead
        simpa [number?] using hRead

end Numbers

section Tokens

theorem NumberSpells.isNumber {token : Token} {literal : List Char}
    (hSpells : NumberSpells token literal) : token.isNumber := by
  cases hSpells <;> rfl

theorem next?_eq_number? {c : Char} (hNumeric : c = '-' ∨ c.isDigit) (rest : List Char) :
    next? (c :: rest) = number? (c :: rest) := by
  unfold next?
  split <;> simp_all

/-- A token is read from any of its literals. What stands after a number must not go on with it. -/
theorem next?_of_spells {token : Token} {literal rest : List Char} (hSpells : token.Spells literal)
    (hEnds : token.isNumber → EndsNumber rest) :
    next? (literal ++ rest) = some (token, rest) := by
  cases hSpells with
  | number hSpells =>
      have hRead := number?_of_spells hSpells (hEnds hSpells.isNumber)
      obtain ⟨c, tail, rfl, hNumeric⟩ := hSpells.exists_cons
      rwa [List.cons_append, next?_eq_number? hNumeric]
  | string hSpells => simp [next?, Quoted.read_of_spells hSpells]
  | _ => simp [next?]

theorem text_null : null.text = ['n', 'u', 'l', 'l'] := rfl

theorem text_bool (value : Bool) :
    (bool value).text = if value then ['t', 'r', 'u', 'e'] else ['f', 'a', 'l', 's', 'e'] := by
  cases value <;> rfl

theorem text_integer (value : Int) :
    (integer value).text =
      if value < 0 then '-' :: digits value.natAbs else digits value.natAbs := rfl

theorem text_fraction : fraction.text = ['0', '.', '0'] := rfl

theorem text_string (content : String) :
    (string (some content)).text = '"' :: (Quoted.escape content.toList ++ ['"']) := rfl

/-- What is no text is written as half of a surrogate pair. -/
theorem text_string_none : (string none).text = ['"', '\\', 'u', 'd', '8', '0', '0', '"'] := rfl

/-- A token is spelled as it is written. -/
theorem spells_text (token : Token) : token.Spells token.text := by
  cases token with
  | openBracket => exact .openBracket
  | closeBracket => exact .closeBracket
  | openBrace => exact .openBrace
  | closeBrace => exact .closeBrace
  | colon => exact .colon
  | comma => exact .comma
  | null =>
      rw [text_null]
      exact .null
  | bool value =>
      rw [text_bool]
      cases value with
      | true => exact .boolTrue
      | false => exact .boolFalse
  | integer value =>
      rw [text_integer]
      apply Spells.number
      split
      · have hSame : value = -(value.natAbs : Int) := by omega
        have hSpells := NumberSpells.negative value.natAbs (by omega)
        rwa [← hSame] at hSpells
      · have hSame : value = (value.natAbs : Int) := by omega
        have hSpells := NumberSpells.natural value.natAbs
        rwa [← hSame] at hSpells
  | fraction =>
      rw [text_fraction]
      have hZero : Run ['0'] := ⟨by simp, by simp⟩
      exact .number (.fraction (.inl rfl) ⟨hZero, fun _ => rfl⟩ (.present hZero) .absent (by simp))
  | string content =>
      cases content with
      | none =>
          rw [text_string_none]
          have hFirst : Quoted.HexDigit 'd' 13 := ⟨by decide, .inl rfl⟩
          have hSecond : Quoted.HexDigit '8' 8 := ⟨by decide, .inl rfl⟩
          have hZero : Quoted.HexDigit '0' 0 := ⟨by decide, .inl rfl⟩
          exact .string (.unit hFirst hSecond hZero hZero .nil)
      | some content =>
          rw [text_string, ← Quoted.joined?_map_char content]
          exact .string (Quoted.spells_escape content.toList)

theorem endsNumberAt_of_isBlank {c : Char} (hBlank : isBlank c) : EndsNumberAt c := by
  simp only [isBlank, Bool.or_eq_true, decide_eq_true_eq] at hBlank
  obtain ((rfl | rfl) | rfl) | rfl := hBlank <;> simp [EndsNumberAt]

/-- A literal starts with a character that is no blank, and that ends a number unless the literal
is a number itself. -/
theorem Spells.exists_cons {token : Token} {literal : List Char} (hSpells : token.Spells literal) :
    ∃ c rest, literal = c :: rest ∧ isBlank c = false ∧
      (token.isNumber = false → EndsNumberAt c) := by
  cases hSpells with
  | number hSpells =>
      obtain ⟨c, rest, hSame, hNumeric⟩ := hSpells.exists_cons
      refine ⟨c, rest, hSame, ?_, fun hOther => ?_⟩
      · obtain rfl | hDigit := hNumeric
        · decide
        · rw [Bool.eq_false_iff]
          intro hBlank
          simp [(endsNumberAt_of_isBlank hBlank).1] at hDigit
      · simp [hSpells.isNumber] at hOther
  | string _ => exact ⟨'"', _, rfl, by decide, fun _ => by simp [EndsNumberAt]⟩
  | _ => exact ⟨_, _, rfl, by decide, fun _ => by simp [EndsNumberAt]⟩

end Tokens

section Texts

/-- The tokens do not have one number right after another. -/
def Apart : List Token → Prop :=
  List.IsChain fun first second => first.isNumber → second.isNumber = false

theorem dropWhile_blanks {blanks : List Char} (hBlank : Blanks blanks) (rest : List Char) :
    (blanks ++ rest).dropWhile isBlank = rest.dropWhile isBlank :=
  List.dropWhile_append_of_pos hBlank

theorem scanFrom_blanks {blanks : List Char} (hBlank : Blanks blanks) (done : List Token) :
    scanFrom done blanks = some done.reverse := by
  have hNothing : blanks.dropWhile isBlank = [] := by simpa using dropWhile_blanks hBlank []
  rw [scanFrom]
  split
  · rfl
  · simp_all

theorem scanFrom_cons {blanks literal rest : List Char} {token : Token} (hBlank : Blanks blanks)
    (hFirst : token.Spells literal) (hEnds : token.isNumber → EndsNumber rest) (done : List Token) :
    scanFrom done (blanks ++ (literal ++ rest)) = scanFrom (token :: done) rest := by
  have hRead := next?_of_spells hFirst hEnds
  obtain ⟨c, tail, rfl, hNoBlank, -⟩ := hFirst.exists_cons
  have hFront : (blanks ++ (c :: tail ++ rest)).dropWhile isBlank = c :: (tail ++ rest) := by
    simp [dropWhile_blanks hBlank, hNoBlank]
  rw [scanFrom]
  split
  · simp_all
  · rename_i d after _ hFound _
    obtain ⟨rfl, rfl⟩ := List.cons.inj (hFront.symm.trans hFound)
    split
    · simp_all
    · simp_all

/-- Tokens with no number in front are spelled by a text that a number cannot go on with. -/
theorem Spelled.endsNumber {tokens : List Token} {text : List Char} (hSpelled : Spelled tokens text)
    (hOther : ∀ token ∈ tokens.head?, token.isNumber = false) : EndsNumber text := by
  intro c hFront
  cases hSpelled with
  | nil hBlank => exact endsNumberAt_of_isBlank (hBlank c (List.mem_of_head? hFront))
  | @cons blanks literal rest token tokens hBlank hFirst _ =>
      cases blanks with
      | nil =>
          obtain ⟨d, tail, rfl, -, hEnds⟩ := hFirst.exists_cons
          have hSame : d = c := by simpa using hFront
          exact hSame ▸ hEnds (hOther token rfl)
      | cons d blanks =>
          have hSame : d = c := by simpa using hFront
          exact endsNumberAt_of_isBlank (hSame ▸ hBlank d (by simp))

theorem scanFrom_of_spelled {tokens : List Token} {text : List Char}
    (hSpelled : Spelled tokens text) (hApart : Apart tokens) (done : List Token) :
    scanFrom done text = some (done.reverse ++ tokens) := by
  induction hSpelled generalizing done with
  | nil hBlank => simp [scanFrom_blanks hBlank]
  | cons hBlank hFirst hBehind ih =>
      -- A number has ended where the text goes on, as the next token is none.
      obtain ⟨hNext, hApart⟩ := List.isChain_cons.mp hApart
      have hEnds := fun hNumber => hBehind.endsNumber fun other hMember => hNext other hMember hNumber
      simp [scanFrom_cons hBlank hFirst hEnds, ih hApart]

/-- A text is scanned into the tokens that it spells. -/
theorem scan_of_spelled {tokens : List Token} {text : List Char} (hSpelled : Spelled tokens text)
    (hApart : Apart tokens) : scan text = some tokens := by
  simpa [scan] using scanFrom_of_spelled hSpelled hApart []

/-- Tokens are spelled as they are written. -/
theorem spelled_text (tokens : List Token) : Spelled tokens (tokens.flatMap text) := by
  induction tokens with
  | nil => exact .nil (by simp [Blanks])
  | cons token tokens ih =>
      have hNothing : Blanks [] := by simp [Blanks]
      exact .cons hNothing token.spells_text ih

end Texts

end BlockFeed.Json.Token
