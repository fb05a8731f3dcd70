import BlockFeed.Json.Quoted

/-! The tokens of JSON text. `Token.text` writes a token and `Token.scan` splits a text into tokens,
with blanks anywhere between them. Numbers are told apart by how they are written: only an integer
literal has a value here, and what is written with a fraction or an exponent, or as a negative zero,
is not one. -/

namespace BlockFeed.Json

/-- A token. A string whose literal is no text has no content. -/
inductive Token
  | openBracket
  | closeBracket
  | openBrace
  | closeBrace
  | colon
  | comma
  | null
  | bool (value : Bool)
  | integer (value : Int)
  | fraction
  | string (content : Option String)
  deriving DecidableEq, Repr

namespace Token

/-- The digits of a natural number. -/
def digits (value : Nat) : List Char := Nat.toDigits 10 value

/-- A token as it is written. The values of fractions and of strings that are no text are not kept,
and one literal is written for all of each. -/
def text : Token → List Char
  | openBracket => ['[']
  | closeBracket => [']']
  | openBrace => ['\x7b']
  | closeBrace => ['\x7d']
  | colon => [':']
  | comma => [',']
  | null => "null".toList
  | bool true => "true".toList
  | bool false => "false".toList
  | integer value => if value < 0 then '-' :: digits value.natAbs else digits value.natAbs
  | fraction => "0.0".toList
  | string (some content) => '"' :: Quoted.escape content.toList ++ ['"']
  | string none => "\"\\ud800\"".toList

/-- The characters that separate tokens. -/
def isBlank (c : Char) : Bool := c = ' ' || c = '\t' || c = '\n' || c = '\r'

/-- What is left of a number after its fraction, if there is one, and whether there is one. -/
def fractionPart? : List Char → Option (Bool × List Char)
  | '.' :: rest =>
      if rest.takeWhile Char.isDigit = [] then none else some (true, rest.dropWhile Char.isDigit)
  | rest => some (false, rest)

/-- The digits of an exponent, behind its sign. -/
def afterSign : List Char → List Char
  | '+' :: rest => rest
  | '-' :: rest => rest
  | rest => rest

/-- What is left of a number after its exponent, if there is one, and whether there is one. -/
def exponentPart? : List Char → Option (Bool × List Char)
  | [] => some (false, [])
  | c :: rest =>
      if c = 'e' ∨ c = 'E' then
        if (afterSign rest).takeWhile Char.isDigit = [] then none
        else some (true, (afterSign rest).dropWhile Char.isDigit)
      else
        some (false, c :: rest)

/-- A number behind its sign. A number of more than one digit does not start with a zero. -/
def magnitude? (negative : Bool) (text : List Char) : Option (Token × List Char) := do
  let whole := text.takeWhile Char.isDigit
  if whole = [] ∨ (whole.head? = some '0' ∧ whole ≠ ['0']) then
    none
  else
    let (fractional, rest) ← fractionPart? (text.dropWhile Char.isDigit)
    let (exponential, rest) ← exponentPart? rest
    let value := Nat.ofDigitChars 10 whole 0
    if fractional ∨ exponential ∨ (negative ∧ value = 0) then
      return (fraction, rest)
    else if negative then
      return (integer (-value), rest)
    else
      return (integer value, rest)

/-- A number, and what stands after it. -/
def number? : List Char → Option (Token × List Char)
  | '-' :: rest => magnitude? true rest
  | text => magnitude? false text

/-- The token at the front of a text, and what stands after it. -/
def next? : List Char → Option (Token × List Char)
  | '[' :: rest => some (openBracket, rest)
  | ']' :: rest => some (closeBracket, rest)
  | '\x7b' :: rest => some (openBrace, rest)
  | '\x7d' :: rest => some (closeBrace, rest)
  | ':' :: rest => some (colon, rest)
  | ',' :: rest => some (comma, rest)
  | 'n' :: 'u' :: 'l' :: 'l' :: rest => some (null, rest)
  | 't' :: 'r' :: 'u' :: 'e' :: rest => some (bool true, rest)
  | 'f' :: 'a' :: 'l' :: 's' :: 'e' :: rest => some (bool false, rest)
  | '"' :: rest =>
      match Quoted.read [] rest with
      | some (pieces, rest) => some (string (Quoted.joined? pieces), rest)
      | none => none
  | text => number? text

theorem dropWhile_length_le (p : Char → Bool) (text : List Char) :
    (text.dropWhile p).length ≤ text.length :=
  (List.dropWhile_suffix p).length_le

theorem fractionPart?_length_le {text rest : List Char} {found : Bool}
    (hRead : fractionPart? text = some (found, rest)) : rest.length ≤ text.length := by
  unfold fractionPart? at hRead
  split at hRead
  · rename_i tail
    have hShorter := dropWhile_length_le Char.isDigit tail
    split at hRead
    · simp at hRead
    · simp only [Option.some.injEq, Prod.mk.injEq] at hRead
      rw [← hRead.2, List.length_cons]
      omega
  · simp only [Option.some.injEq, Prod.mk.injEq] at hRead
    simp [hRead.2]

theorem afterSign_length_le (text : List Char) : (afterSign text).length ≤ text.length := by
  unfold afterSign
  split <;> simp

theorem exponentPart?_length_le {text rest : List Char} {found : Bool}
    (hRead : exponentPart? text = some (found, rest)) : rest.length ≤ text.length := by
  unfold exponentPart? at hRead
  split at hRead
  · simp_all
  · rename_i c tail
    have hShorter := dropWhile_length_le Char.isDigit (afterSign tail)
    have hUnsigned := afterSign_length_le tail
    split at hRead
    · split at hRead
      · simp at hRead
      · simp only [Option.some.injEq, Prod.mk.injEq] at hRead
        rw [← hRead.2, List.length_cons]
        omega
    · simp only [Option.some.injEq, Prod.mk.injEq] at hRead
      simp [← hRead.2]

/-- A number has a digit, and what stands after it is shorter. -/
theorem magnitude?_length_lt {negative : Bool} {text rest : List Char} {token : Token}
    (hRead : magnitude? negative text = some (token, rest)) : rest.length < text.length := by
  have hSplitLength : (text.takeWhile Char.isDigit).length + (text.dropWhile Char.isDigit).length =
      text.length := by
    rw [← List.length_append, List.takeWhile_append_dropWhile]
  simp only [magnitude?, Option.bind_eq_bind] at hRead
  split at hRead
  · simp at hRead
  · rename_i hWellFormed
    have hNonempty : 0 < (text.takeWhile Char.isDigit).length := by
      refine List.length_pos_iff.mpr fun hEmpty => ?_
      exact hWellFormed (.inl hEmpty)
    obtain ⟨⟨fractional, afterFraction⟩, hFractionRead, hRead⟩ := Option.bind_eq_some_iff.mp hRead
    obtain ⟨⟨exponential, afterExponent⟩, hExponentRead, hRead⟩ := Option.bind_eq_some_iff.mp hRead
    have hFirst := fractionPart?_length_le hFractionRead
    have hSecond := exponentPart?_length_le hExponentRead
    dsimp only at hSecond
    have hSame : afterExponent = rest := by
      dsimp only at hRead
      split at hRead
      · exact (Prod.mk.inj (Option.some.inj hRead)).2
      · split at hRead
        · exact (Prod.mk.inj (Option.some.inj hRead)).2
        · exact (Prod.mk.inj (Option.some.inj hRead)).2
    subst hSame
    omega

/-- A token takes at least one character. -/
theorem next?_length_lt {text rest : List Char} {token : Token}
    (hRead : next? text = some (token, rest)) : rest.length < text.length := by
  unfold next? at hRead
  split at hRead
  case h_10 =>
    split at hRead
    · rename_i hFound
      have hShorter := Quoted.read_length_lt hFound
      simp only [Option.some.injEq, Prod.mk.injEq] at hRead
      rw [← hRead.2, List.length_cons]
      omega
    · simp at hRead
  case h_11 =>
    unfold number? at hRead
    split at hRead
    · have hShorter := magnitude?_length_lt hRead
      rw [List.length_cons]
      omega
    · exact magnitude?_length_lt hRead
  all_goals
    simp only [Option.some.injEq, Prod.mk.injEq] at hRead
    simp only [← hRead.2, List.length_cons]
    omega

/-- Splits a text into tokens, behind those that are done, last first. -/
def scanFrom (done : List Token) (text : List Char) : Option (List Token) :=
  match text.dropWhile isBlank, dropWhile_length_le isBlank text with
  | [], _ => some done.reverse
  | c :: rest, _ =>
      match _hRead : next? (c :: rest) with
      | none => none
      | some (token, after) => scanFrom (token :: done) after
termination_by text.length
decreasing_by
  have hShorter := next?_length_lt _hRead
  omega

/-- The tokens of a text. -/
def scan (text : List Char) : Option (List Token) := scanFrom [] text

end Token

end BlockFeed.Json
