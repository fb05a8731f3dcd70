import BlockFeed.Json.Quoted

/-! The literals of a text. `Quoted.Spells` says which characters may stand between quotation marks
for which pieces: a character as itself, behind a backslash, or as a unit of four hexadecimal
digits. All of them are read, and the one that `escape` writes is among them. -/

namespace BlockFeed.Json.Quoted

/-- A character is the hexadecimal digit of a value, in one case or the other. -/
def HexDigit (c : Char) (value : Nat) : Prop :=
  value < 16 ∧ (c = Nat.digitChar value ∨ c = (Nat.digitChar value).toUpper)

/-- The unit that four hexadecimal digits stand for, the highest first. -/
def unitOf (a b c d : Nat) : Nat := ((a * 16 + b) * 16 + c) * 16 + d

/-- What stands between quotation marks for a list of pieces. -/
inductive Spells : List Piece → List Char → Prop
  | nil : Spells [] []
  | plain {c : Char} {pieces : List Piece} {body : List Char} (hNoMark : c ≠ '"')
      (hNoBackslash : c ≠ '\\') (hVisible : firstPlain ≤ c.toNat) (hSpells : Spells pieces body) :
      Spells (.char c :: pieces) (c :: body)
  | letter {letter c : Char} {pieces : List Piece} {body : List Char}
      (hKnown : (letter, c) ∈ letterEscapes) (hSpells : Spells pieces body) :
      Spells (.char c :: pieces) ('\\' :: letter :: body)
  | unit {a b c d : Char} {p q r s : Nat} {pieces : List Piece} {body : List Char}
      (hFirst : HexDigit a p) (hSecond : HexDigit b q) (hThird : HexDigit c r)
      (hFourth : HexDigit d s) (hSpells : Spells pieces body) :
      Spells (.ofUnit (unitOf p q r s) :: pieces) ('\\' :: 'u' :: a :: b :: c :: d :: body)

theorem hexValue?_of_hexDigit {c : Char} {value : Nat} (hDigit : HexDigit c value) :
    hexValue? c = some value := by
  have hValues : ∀ value < 16, hexValue? (Nat.digitChar value) = some value ∧
      hexValue? (Nat.digitChar value).toUpper = some value := by decide
  obtain ⟨hSmall, hSame | hUpper⟩ := hDigit
  · simpa [hSame] using (hValues value hSmall).1
  · simpa [hUpper] using (hValues value hSmall).2

theorem unit?_of_hexDigits {a b c d : Char} {p q r s : Nat} (hFirst : HexDigit a p)
    (hSecond : HexDigit b q) (hThird : HexDigit c r) (hFourth : HexDigit d s) :
    unit? a b c d = some (unitOf p q r s) := by
  simp [unit?, unitOf, hexValue?_of_hexDigit hFirst, hexValue?_of_hexDigit hSecond,
    hexValue?_of_hexDigit hThird, hexValue?_of_hexDigit hFourth]

/-- No escape by a letter takes the letter of the units, or stands for more than one character. -/
theorem lookup_letterEscapes {letter c : Char} (hKnown : (letter, c) ∈ letterEscapes) :
    letter ≠ 'u' ∧ letterEscapes.lookup letter = some c := by
  have hAll : ∀ pair ∈ letterEscapes, pair.1 ≠ 'u' ∧
      letterEscapes.lookup pair.1 = some pair.2 := by decide
  exact hAll (letter, c) hKnown

theorem read_plain {c : Char} (hNoMark : c ≠ '"') (hNoBackslash : c ≠ '\\')
    (hVisible : firstPlain ≤ c.toNat) (done : List Piece) (rest : List Char) :
    read done (c :: rest) = read (.char c :: done) rest := by
  rw [read]
  · simp [hNoBackslash, Nat.not_lt.mpr hVisible]
  all_goals simp [hNoMark, hNoBackslash]

theorem read_letter {letter c : Char} (hKnown : (letter, c) ∈ letterEscapes) (done : List Piece)
    (rest : List Char) :
    read done ('\\' :: letter :: rest) = read (.char c :: done) rest := by
  obtain ⟨hNoUnit, hFound⟩ := lookup_letterEscapes hKnown
  rw [read]
  · simp [hFound]
  · simp [hNoUnit]

/-- A literal is read up to its closing quotation mark, whatever stands after it. -/
theorem read_of_spells {pieces : List Piece} {body : List Char} (hSpells : Spells pieces body)
    (done : List Piece) (rest : List Char) :
    read done (body ++ '"' :: rest) = some (done.reverse ++ pieces, rest) := by
  induction hSpells generalizing done with
  | nil => simp [read]
  | plain hNoMark hNoBackslash hVisible _ ih =>
      simp [read_plain hNoMark hNoBackslash hVisible, ih]
  | letter hKnown _ ih => simp [read_letter hKnown, ih]
  | unit hFirst hSecond hThird hFourth _ ih =>
      simp [read, unit?_of_hexDigits hFirst hSecond hThird hFourth, ih]

/-- The digits of a control character name it as a unit. -/
theorem ofUnit_of_control {c : Char} (hControl : c.toNat < firstPlain) :
    Piece.ofUnit (unitOf 0 0 (c.toNat / 16) (c.toNat % 16)) = .char c := by
  have hSmall : c.toNat < 0x20 := hControl
  have hWhole : unitOf 0 0 (c.toNat / 16) (c.toNat % 16) = c.toNat := by
    simp only [unitOf]
    omega
  rw [hWhole, Piece.ofUnit, if_neg (by omega), Char.ofNat_toNat]

/-- A character is spelled as it is written. -/
theorem spells_escapeChar (c : Char) {pieces : List Piece} {body : List Char}
    (hSpells : Spells pieces body) : Spells (.char c :: pieces) (escapeChar c ++ body) := by
  unfold escapeChar
  split
  · rename_i hMark
    obtain rfl | rfl := hMark
    · exact .letter (by decide) hSpells
    · exact .letter (by decide) hSpells
  · rename_i hNoMark
    split
    · rename_i hVisible
      exact .plain (fun hSame => hNoMark (.inl hSame)) (fun hSame => hNoMark (.inr hSame)) hVisible
        hSpells
    · rename_i hControl
      split
      · rename_i letter named hFound
        have hSame : named = c := by simpa using List.find?_some hFound
        have hKnown := List.mem_of_find?_eq_some hFound
        rw [hSame] at hKnown
        exact .letter hKnown hSpells
      · -- No letter stands for the character, so two digits of a unit do.
        have hSmall : c.toNat < firstPlain := Nat.lt_of_not_le hControl
        have hZero : HexDigit '0' 0 := ⟨by decide, .inl rfl⟩
        have hHigh : HexDigit (Nat.digitChar (c.toNat / 16)) (c.toNat / 16) := by
          refine ⟨?_, .inl rfl⟩
          rw [firstPlain] at hSmall
          omega
        have hLow : HexDigit (Nat.digitChar (c.toNat % 16)) (c.toNat % 16) :=
          ⟨Nat.mod_lt _ (by decide), .inl rfl⟩
        rw [← ofUnit_of_control hSmall]
        exact .unit hZero hZero hHigh hLow hSpells

/-- A text is spelled as it is written. -/
theorem spells_escape (text : List Char) : Spells (text.map .char) (escape text) := by
  induction text with
  | nil => exact .nil
  | cons c rest ih => simpa [escape] using spells_escapeChar c ih

theorem join?_map_char (done text : List Char) :
    join? done (text.map .char) = some (done.reverse ++ text) := by
  induction text generalizing done with
  | nil => simp [join?]
  | cons c rest ih => simp [join?, ih]

@[simp] theorem joined?_map_char (text : String) :
    joined? (text.toList.map .char) = some text := by
  simp [joined?, join?_map_char]

end BlockFeed.Json.Quoted
