/-! Text between quotation marks. `escape` writes a text, and `read` reads any literal into pieces
that `joined?` puts together. A literal may name half of a surrogate pair alone, which is no text:
such a literal is read, but has no joined form. -/

namespace BlockFeed.Json.Quoted

/-- The first code point below which a character is written as an escape. -/
def firstPlain : Nat := 0x20

/-- The letters that stand for characters after a backslash, each with its character. -/
def letterEscapes : List (Char × Char) := [
  ('"', '"'), ('\\', '\\'), ('/', '/'), ('b', '\x08'), ('f', '\x0c'), ('n', '\n'), ('r', '\r'),
  ('t', '\t')]

/-- A character as it is written between quotation marks. A solidus is written as itself. -/
def escapeChar (c : Char) : List Char :=
  if c = '"' ∨ c = '\\' then ['\\', c]
  else if firstPlain ≤ c.toNat then [c]
  else
    match letterEscapes.find? fun pair => pair.2 = c with
    | some (letter, _) => ['\\', letter]
    | none => ['\\', 'u', '0', '0', Nat.digitChar (c.toNat / 16), Nat.digitChar (c.toNat % 16)]

/-- A text as it is written between quotation marks. -/
def escape (text : List Char) : List Char := text.flatMap escapeChar

/-- What a part of a literal stands for: a character, or half of a surrogate pair. -/
inductive Piece
  | char (c : Char)
  | half (unit : Nat)
  deriving DecidableEq, Repr

namespace Piece

/-- The piece that a 16-bit unit stands for. -/
def ofUnit (unit : Nat) : Piece :=
  if 0xd800 ≤ unit ∧ unit < 0xe000 then half unit else char (Char.ofNat unit)

/-- The character of a surrogate pair, if the halves are a first and a second one. -/
def pair? (high low : Nat) : Option Char :=
  if high < 0xdc00 ∧ 0xdc00 ≤ low then
    some (Char.ofNat (0x10000 + (high - 0xd800) * 0x400 + (low - 0xdc00)))
  else
    none

end Piece

/-- Puts pieces together behind the characters that are done, last first. Halves have to come in
pairs. -/
def join? (done : List Char) : List Piece → Option (List Char)
  | [] => some done.reverse
  | .char c :: rest => join? (c :: done) rest
  | .half high :: .half low :: rest =>
      match Piece.pair? high low with
      | some c => join? (c :: done) rest
      | none => none
  | .half _ :: _ => none

/-- The text of a literal, if it has one. -/
def joined? (pieces : List Piece) : Option String :=
  (join? [] pieces).map String.ofList

/-- The value of a hexadecimal digit in either case. -/
def hexValue? (c : Char) : Option Nat :=
  if c.isDigit then some (c.toNat - '0'.toNat)
  else if 'a' ≤ c ∧ c ≤ 'f' then some (10 + (c.toNat - 'a'.toNat))
  else if 'A' ≤ c ∧ c ≤ 'F' then some (10 + (c.toNat - 'A'.toNat))
  else none

/-- The 16-bit unit that four hexadecimal digits spell. -/
def unit? (a b c d : Char) : Option Nat := do
  let a ← hexValue? a
  let b ← hexValue? b
  let c ← hexValue? c
  let d ← hexValue? d
  return ((a * 16 + b) * 16 + c) * 16 + d

/-- Reads a literal from behind its opening quotation mark to behind its closing one. The pieces
that are done come last first. -/
def read (done : List Piece) : List Char → Option (List Piece × List Char)
  | [] => none
  | '"' :: rest => some (done.reverse, rest)
  | '\\' :: 'u' :: a :: b :: c :: d :: rest =>
      match unit? a b c d with
      | some unit => read (.ofUnit unit :: done) rest
      | none => none
  | '\\' :: letter :: rest =>
      match letterEscapes.lookup letter with
      | some c => read (.char c :: done) rest
      | none => none
  | c :: rest => if c = '\\' ∨ c.toNat < firstPlain then none else read (.char c :: done) rest

/-- A literal that is read leaves less to read. -/
theorem read_length_lt {done pieces : List Piece} {text rest : List Char}
    (hFound : read done text = some (pieces, rest)) : rest.length < text.length := by
  fun_induction read done text with
  | case1 => simp at hFound
  | case2 done tail =>
      simp only [Option.some.injEq, Prod.mk.injEq] at hFound
      simp [hFound.2]
  | case3 done a b c d tail unit _ ih =>
      have hShorter := ih hFound
      simp only [List.length_cons]
      omega
  | case4 => simp at hFound
  | case5 done letter tail _ c _ ih =>
      have hShorter := ih hFound
      simp only [List.length_cons]
      omega
  | case6 => simp at hFound
  | case7 => simp at hFound
  | case8 done c tail _ _ _ _ ih =>
      have hShorter := ih hFound
      simp only [List.length_cons]
      omega

end BlockFeed.Json.Quoted
