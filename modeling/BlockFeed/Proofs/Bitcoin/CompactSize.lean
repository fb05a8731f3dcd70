import BlockFeed.Bitcoin.CompactSize
import Mathlib.Logic.ExistsUnique

/-! Variable-length numbers in both directions. Every byte string starts with a number in its shortest
form, or is cut off within one, or starts with a number in a longer form than it needs. It does only one
of the three, and the reader tells which. -/

namespace BlockFeed.Bitcoin.CompactSize

/-- The forms of more than one byte. -/
def forms : List Form := [⟨0xfd, 2, 0xfd⟩, ⟨0xfe, 4, 0x10000⟩, ⟨0xff, 8, 0x100000000⟩]

/-- The data ends within the shortest form of a number. -/
def Cut (data : Bytes) : Prop := ∃ value, data <+: encode value ∧ data ≠ encode value

/-- The data starts with a number in a form that is meant for greater ones. -/
def Overlong (data : Bytes) : Prop :=
  ∃ form ∈ forms, ∃ value < form.least, ∃ rest,
    data = form.first :: Bytes.littleEndian form.width value ++ rest

/-- What data can start with. -/
inductive Opening where
  | number (value : UInt64)
  | cut
  | overlong

namespace Opening

/-- The data starts in this way. -/
def Of (data : Bytes) : Opening → Prop
  | number value => encode value <+: data
  | cut => Cut data
  | overlong => Overlong data

/-- What is read where the data starts in this way. -/
def outcome : Opening → Except BlockError (UInt64 × Nat)
  | number value => .ok (value, (encode value).length)
  | cut => .error (.insufficientBytes .compactSize)
  | overlong => .error .overlongNumber

theorem outcome_injective {first second : Opening} (h : first.outcome = second.outcome) :
    first = second := by
  cases first <;> cases second <;> cases h <;> rfl

end Opening

section Forms

variable {form : Form}

theorem form?_of_mem (hForm : form ∈ forms) : form? form.first = some form := by
  revert form
  decide

theorem mem_of_form? {first : UInt8} (h : form? first = some form) :
    form ∈ forms ∧ first = form.first := by
  have hEach : ∀ code : Fin 256, ∀ form ∈ form? (UInt8.ofFin code),
      form ∈ forms ∧ UInt8.ofFin code = form.first := by decide +kernel
  exact hEach first.toFin form h

theorem form?_eq_none_iff {first : UInt8} : form? first = none ↔ first.toNat < 0xfd := by
  have hEach : ∀ code : Fin 256, form? (UInt8.ofFin code) = none ↔ code.val < 0xfd := by decide +kernel
  exact hEach first.toFin

theorem mem_forms_iff : form ∈ forms ↔ form = twoBytes ∨ form = fourBytes ∨ form = eightBytes := by
  have hForms : forms = [twoBytes, fourBytes, eightBytes] := rfl
  simp [hForms]

theorem capacity_width (hForm : form ∈ forms) :
    form.least ≤ Bytes.capacity form.width ∧ Bytes.capacity form.width ≤ UInt64.size := by
  revert form
  decide

/-- A byte is left for the highest digit, which alone makes a number of the form large enough. -/
theorem least_le_highest (hForm : form ∈ forms) :
    0 < form.width ∧ form.least ≤ Bytes.capacity (form.width - 1) * 0xff := by
  revert form
  decide

theorem formOf?_eq_none_iff {value : Nat} : formOf? value = none ↔ value < 0xfd := by
  unfold formOf?
  split
  · next hSmall => exact iff_of_true rfl hSmall
  · next hLarge =>
      refine iff_of_false ?_ hLarge
      split
      · simp
      · split <;> simp

/-- A number has the form in whose range it lies. -/
theorem formOf?_eq_some_iff {value : Nat} (hValue : value < UInt64.size) : formOf? value = some form ↔
    form ∈ forms ∧ form.least ≤ value ∧ value < Bytes.capacity form.width := by
  have hTwo : twoBytes.least = 0xfd ∧ Bytes.capacity twoBytes.width = 0x10000 := by decide
  have hFour : fourBytes.least = 0x10000 ∧ Bytes.capacity fourBytes.width = 0x100000000 := by decide
  have hEight : eightBytes.least = 0x100000000 ∧ Bytes.capacity eightBytes.width = UInt64.size := by
    decide
  rw [mem_forms_iff]
  unfold formOf?
  constructor
  · intro h
    split at h
    · cases h
    · split at h
      · cases h
        exact ⟨Or.inl rfl, by omega, by omega⟩
      · split at h
        · cases h
          exact ⟨Or.inr (Or.inl rfl), by omega, by omega⟩
        · cases h
          exact ⟨Or.inr (Or.inr rfl), by omega, by omega⟩
  · intro h
    obtain ⟨rfl | rfl | rfl, hLeast, hCapacity⟩ := h
    · rw [if_neg (by omega), if_pos (by omega)]
    · rw [if_neg (by omega), if_neg (by omega), if_pos (by omega)]
    · rw [if_neg (by omega), if_neg (by omega), if_neg (by omega)]

end Forms

section Encode

variable {form : Form} {digits : Bytes}

theorem encode_of_small {value : UInt64} (h : value.toNat < 0xfd) : encode value = [value.toUInt8] := by
  rw [encode, formOf?_eq_none_iff.mpr h]

/-- The value of digits that are as many as the form has. -/
theorem toNat_ofNat_digits (hForm : form ∈ forms) (hLength : digits.length = form.width) :
    (UInt64.ofNat (Bytes.ofLittleEndian digits)).toNat = Bytes.ofLittleEndian digits := by
  have hDigits := Bytes.ofLittleEndian_lt digits
  rw [hLength] at hDigits
  exact UInt64.toNat_ofNat_of_lt' (Nat.lt_of_lt_of_le hDigits (capacity_width hForm).2)

/-- Digits of a number that is large enough for their form are its shortest form. -/
theorem encode_ofLittleEndian (hForm : form ∈ forms) (hLength : digits.length = form.width)
    (hLeast : form.least ≤ Bytes.ofLittleEndian digits) :
    encode (UInt64.ofNat (Bytes.ofLittleEndian digits)) = form.first :: digits := by
  have hValue := toNat_ofNat_digits hForm hLength
  have hDigits := Bytes.ofLittleEndian_lt digits
  rw [hLength] at hDigits
  have hOwn : formOf? (Bytes.ofLittleEndian digits) = some form := by
    rw [formOf?_eq_some_iff (Nat.lt_of_lt_of_le hDigits (capacity_width hForm).2)]
    exact ⟨hForm, hLeast, hDigits⟩
  have hSpelled := Bytes.littleEndian_ofLittleEndian digits
  rw [hLength] at hSpelled
  simp only [encode, hValue, hOwn, hSpelled]

/-- The shortest form of a number is a byte of its own or has digits that make it large enough. -/
theorem encode_cases (value : UInt64) : (value.toNat < 0xfd ∧ encode value = [value.toUInt8]) ∨
    ∃ form ∈ forms, ∃ digits, digits.length = form.width ∧ form.least ≤ Bytes.ofLittleEndian digits ∧
      value = UInt64.ofNat (Bytes.ofLittleEndian digits) ∧ encode value = form.first :: digits := by
  cases hOwn : formOf? value.toNat with
  | none =>
      have hSmall := formOf?_eq_none_iff.mp hOwn
      exact Or.inl ⟨hSmall, encode_of_small hSmall⟩
  | some form =>
      obtain ⟨hForm, hLeast, hCapacity⟩ := (formOf?_eq_some_iff value.toNat_lt).mp hOwn
      have hDigits : Bytes.ofLittleEndian (Bytes.littleEndian form.width value.toNat) = value.toNat := by
        rw [Bytes.ofLittleEndian_littleEndian, Nat.mod_eq_of_lt hCapacity]
      refine Or.inr ⟨form, hForm, Bytes.littleEndian form.width value.toNat, ?_, ?_, ?_, ?_⟩
      · exact Bytes.littleEndian_length _ _
      · rw [hDigits]
        exact hLeast
      · rw [hDigits, UInt64.ofNat_toNat]
      · rw [encode, hOwn]

/-- Digits that are too few become a number that is large enough for their form when zeros and a
highest digit are put behind them. -/
theorem exists_completion (hForm : form ∈ forms) (hShort : digits.length < form.width) :
    ∃ more, more ≠ [] ∧ (digits ++ more).length = form.width ∧
      form.least ≤ Bytes.ofLittleEndian (digits ++ more) := by
  obtain ⟨hWidth, hHighest⟩ := least_le_highest hForm
  have hFront : (digits ++ List.replicate (form.width - 1 - digits.length) 0).length =
      form.width - 1 := by
    rw [List.length_append, List.length_replicate]
    omega
  refine ⟨List.replicate (form.width - 1 - digits.length) 0 ++ [0xff], by simp, ?_, ?_⟩
  · rw [← List.append_assoc, List.length_append, hFront, List.length_singleton]
    omega
  · rw [← List.append_assoc, Bytes.ofLittleEndian_append, hFront]
    exact Nat.le_trans hHighest (Nat.le_add_left _ _)

end Encode

section Decode

variable {form : Form} {digits : Bytes}

theorem decode_of_small {first : UInt8} (h : first.toNat < 0xfd) (rest : Bytes) :
    decode (first :: rest) = .ok (first.toUInt64, 1) := by
  rw [decode, form?_eq_none_iff.mpr h]

theorem decode_of_short (hForm : form ∈ forms) (hShort : digits.length < form.width) :
    decode (form.first :: digits) = .error (.insufficientBytes .compactSize) := by
  have hTaken : (digits.take form.width).length < form.width := by
    rw [List.length_take]
    omega
  simp only [decode, form?_of_mem hForm, if_pos hTaken]

theorem decode_of_whole (hForm : form ∈ forms) (hLength : digits.length = form.width) (rest : Bytes) :
    decode (form.first :: (digits ++ rest)) =
      if Bytes.ofLittleEndian digits < form.least then .error .overlongNumber
      else .ok (UInt64.ofNat (Bytes.ofLittleEndian digits), 1 + form.width) := by
  have hTaken : (digits ++ rest).take form.width = digits := List.take_left' hLength
  simp only [decode, form?_of_mem hForm, hTaken, hLength, Nat.lt_irrefl, if_false]

/-- Whatever stands behind a number, it is read back. -/
theorem decode_number (value : UInt64) (rest : Bytes) :
    decode (encode value ++ rest) = .ok (value, (encode value).length) := by
  rcases encode_cases value with ⟨hSmall, hEncode⟩ | ⟨form, hForm, digits, hLength, hLeast, hValue, hEncode⟩
  · have hByte : value.toUInt8.toNat = value.toNat := by
      rw [UInt64.toNat_toUInt8]
      omega
    have hBack : value.toUInt8.toUInt64 = value := by
      apply UInt64.toNat_inj.mp
      rw [UInt8.toNat_toUInt64, hByte]
    rw [hEncode, List.singleton_append, decode_of_small (by omega), hBack]
    rfl
  · rw [hEncode, List.cons_append, decode_of_whole hForm hLength, if_neg (Nat.not_lt.mpr hLeast),
      List.length_cons, hLength, ← hValue, Nat.add_comm]

/-- A front of a number is its whole, is empty, or has too few digits. -/
theorem decode_of_cut {data : Bytes} (h : Cut data) :
    decode data = .error (.insufficientBytes .compactSize) := by
  obtain ⟨value, hFront, hOther⟩ := h
  cases data with
  | nil => rfl
  | cons first rest =>
      rcases encode_cases value with ⟨-, hEncode⟩ | ⟨form, hForm, digits, hLength, -, -, hEncode⟩
      · rw [hEncode] at hFront hOther
        obtain ⟨rfl, hRest⟩ := List.cons_prefix_cons.mp hFront
        exact absurd (by rw [List.prefix_nil.mp hRest]) hOther
      · rw [hEncode] at hFront hOther
        obtain ⟨rfl, hRest⟩ := List.cons_prefix_cons.mp hFront
        have hShort : rest.length < form.width := by
          rw [← hLength]
          refine Nat.lt_of_le_of_ne hRest.length_le fun hSame => hOther ?_
          rw [hRest.eq_of_length hSame]
        exact decode_of_short hForm hShort

theorem decode_of_overlong {data : Bytes} (h : Overlong data) : decode data = .error .overlongNumber := by
  obtain ⟨form, hForm, value, hValue, rest, rfl⟩ := h
  have hCapacity : value < Bytes.capacity form.width :=
    Nat.lt_of_lt_of_le hValue (capacity_width hForm).1
  have hDigits : Bytes.ofLittleEndian (Bytes.littleEndian form.width value) = value := by
    rw [Bytes.ofLittleEndian_littleEndian, Nat.mod_eq_of_lt hCapacity]
  rw [List.cons_append, decode_of_whole hForm (Bytes.littleEndian_length _ _), hDigits, if_pos hValue]

/-- What data starts with is what the reader finds. -/
theorem decode_of_opening {data : Bytes} {opening : Opening} (h : opening.Of data) :
    decode data = opening.outcome := by
  cases opening with
  | number value =>
      obtain ⟨rest, rfl⟩ := h
      exact decode_number value rest
  | cut => exact decode_of_cut h
  | overlong => exact decode_of_overlong h

theorem exists_digits {width : Nat} {rest : Bytes} (h : width ≤ rest.length) :
    ∃ digits behind, rest = digits ++ behind ∧ digits.length = width :=
  ⟨rest.take width, rest.drop width, (List.take_append_drop _ _).symm, List.length_take_of_le h⟩

theorem exists_opening (data : Bytes) : ∃ opening : Opening, opening.Of data := by
  cases data with
  | nil => exact ⟨.cut, 0, List.nil_prefix, by decide⟩
  | cons first rest =>
      cases hFirst : form? first with
      | none =>
          have hSmall : first.toUInt64.toNat < 0xfd := by
            rw [UInt8.toNat_toUInt64]
            exact form?_eq_none_iff.mp hFirst
          have hEncode : encode first.toUInt64 = [first] := by
            rw [encode_of_small hSmall, UInt8.toUInt8_toUInt64]
          exact ⟨.number first.toUInt64, rest, by rw [hEncode, List.singleton_append]⟩
      | some form =>
          obtain ⟨hForm, rfl⟩ := mem_of_form? hFirst
          by_cases hShort : rest.length < form.width
          · obtain ⟨more, hMore, hLength, hLeast⟩ := exists_completion hForm hShort
            have hEncode := encode_ofLittleEndian hForm hLength hLeast
            refine ⟨.cut, _, ⟨more, (List.cons_append).trans hEncode.symm⟩, ?_⟩
            rw [hEncode]
            simpa using hMore
          · obtain ⟨digits, behind, rfl, hLength⟩ := exists_digits (Nat.le_of_not_lt hShort)
            by_cases hLess : Bytes.ofLittleEndian digits < form.least
            · refine ⟨.overlong, form, hForm, Bytes.ofLittleEndian digits, hLess, behind, ?_⟩
              rw [← hLength, Bytes.littleEndian_ofLittleEndian, List.cons_append]
            · have hEncode := encode_ofLittleEndian hForm hLength (Nat.le_of_not_lt hLess)
              exact ⟨.number _, behind, by rw [hEncode, List.cons_append]⟩

/-- What is missing is named in one way. -/
theorem text_of_insufficientBytes {data : Bytes} {part : BlockPart}
    (h : decode data = .error (.insufficientBytes part)) : part.text = "VarInt" := by
  obtain ⟨opening, hOpening⟩ := exists_opening data
  rw [decode_of_opening hOpening] at h
  cases opening with
  | cut =>
      cases h
      rfl
  | number | overlong => cases h

/-- Data starts with a number, is cut off within one, or starts with a number in too long a form. Just one
of these holds, and with one number only. Reading gives the number and the bytes of its shortest form,
or reports the one or the other fault, and names what is cut off in one way. A number is read back
whatever stands behind it, and none has the front of another. -/
theorem decode_opening (data : Bytes) :
    (∃! opening : Opening, opening.Of data) ∧
    (∀ opening : Opening, opening.Of data ↔ decode data = opening.outcome) ∧
    (∀ part, decode data = .error (.insufficientBytes part) → part.text = "VarInt") ∧
    (∀ value rest, decode (encode value ++ rest) = .ok (value, (encode value).length)) ∧
    ∀ value value', encode value <+: encode value' → value = value' := by
  obtain ⟨opening, hOpening⟩ := exists_opening data
  refine ⟨⟨opening, hOpening, ?_⟩, ?_, fun part => text_of_insufficientBytes, decode_number, ?_⟩
  · intro other hOther
    apply Opening.outcome_injective
    rw [← decode_of_opening hOther, decode_of_opening hOpening]
  · intro other
    constructor
    · exact decode_of_opening
    · intro h
      rw [decode_of_opening hOpening] at h
      rwa [← Opening.outcome_injective h]
  · intro value value' hFront
    obtain ⟨rest, hRest⟩ := hFront
    have hWhole := decode_number value' []
    rw [List.append_nil, ← hRest, decode_number] at hWhole
    exact (Prod.mk.inj (Except.ok.inj hWhole)).1

end Decode

end BlockFeed.Bitcoin.CompactSize
