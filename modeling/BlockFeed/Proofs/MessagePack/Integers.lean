import BlockFeed.Proofs.MessagePack.Headers
import BlockFeed.MessagePack.Integer

/-! Integers are read in exactly the forms of the grammar, and the value of each form is the one
that the grammar gives it. -/

namespace BlockFeed.MessagePack

open Reader

/-- A two's complement reading lies in the signed range and keeps the digits. -/
theorem signedOfBigEndian_range (bytes : Bytes) :
    -Bytes.capacity bytes.length ≤ 2 * Bytes.signedOfBigEndian bytes ∧
      2 * Bytes.signedOfBigEndian bytes < Bytes.capacity bytes.length := by
  have hPos : 0 < Bytes.capacity bytes.length := Nat.lt_of_le_of_lt (Nat.zero_le _) (Bytes.ofBigEndian_lt bytes)
  have hLower := Int.le_bmod (x := Bytes.ofBigEndian bytes) hPos
  have hUpper := Int.bmod_lt (x := Bytes.ofBigEndian bytes) hPos
  rw [Bytes.signedOfBigEndian]
  omega

theorem signedOfBigEndian_emod (bytes : Bytes) :
    (Bytes.signedOfBigEndian bytes % Bytes.capacity bytes.length).toNat = Bytes.ofBigEndian bytes := by
  have hDigits := Bytes.ofBigEndian_lt bytes
  rw [Bytes.signedOfBigEndian, Int.bmod_emod, Int.emod_eq_of_lt (by omega) (by omega), Int.toNat_natCast]

theorem signedOfBigEndian_bigEndian {width : Nat} {value : Int}
    (hLower : -Bytes.capacity width ≤ 2 * value) (hUpper : 2 * value < Bytes.capacity width) :
    Bytes.signedOfBigEndian (Bytes.bigEndian width (value % Bytes.capacity width).toNat) = value := by
  have hPos : 0 < Bytes.capacity width := by omega
  have hNonneg := Int.emod_nonneg value (show (Bytes.capacity width : Int) ≠ 0 by omega)
  have hLt := Int.emod_lt_of_pos value (show (0 : Int) < Bytes.capacity width by omega)
  rw [Bytes.signedOfBigEndian, Bytes.bigEndian_length, Bytes.ofBigEndian_bigEndian,
    Nat.mod_eq_of_lt (by omega), Int.toNat_of_nonneg hNonneg, Int.emod_bmod]
  exact Int.bmod_eq_of_le_mul_two (by omega) (by omega)

theorem IntegerField.unsigned_of_bytes (bytes : Bytes) :
    (unsigned bytes.length).Carries (Bytes.ofBigEndian bytes) ∧
      bytes = (unsigned bytes.length).spell (Bytes.ofBigEndian bytes) := by
  have hDigits := Bytes.ofBigEndian_lt bytes
  refine ⟨⟨by omega, by omega⟩, ?_⟩
  rw [IntegerField.spell, Int.emod_eq_of_lt (by omega) (by omega), Int.toNat_natCast,
    Bytes.bigEndian_ofBigEndian]

theorem IntegerField.signed_of_bytes (bytes : Bytes) :
    (signed bytes.length).Carries (Bytes.signedOfBigEndian bytes) ∧
      bytes = (signed bytes.length).spell (Bytes.signedOfBigEndian bytes) := by
  refine ⟨signedOfBigEndian_range bytes, ?_⟩
  rw [IntegerField.spell, signedOfBigEndian_emod, Bytes.bigEndian_ofBigEndian]

theorem IntegerField.reads (field : IntegerField) : Reads field.read
    (fun value word => field.Carries value ∧ word = field.spell value) := by
  cases field with
  | inMarker own =>
      refine (reads_pure own).of_iff fun value word => ?_
      simp only [IntegerField.Carries, IntegerField.spell, eq_comm]
  | unsigned width =>
      refine ((reads_take _ width).map).of_iff fun value word => ?_
      constructor
      · rintro ⟨bytes, ⟨rfl, rfl⟩, rfl⟩
        exact IntegerField.unsigned_of_bytes word
      · rintro ⟨⟨hLower, hUpper⟩, rfl⟩
        refine ⟨_, ⟨rfl, Bytes.bigEndian_length width _⟩, ?_⟩
        rw [IntegerField.spell, Int.emod_eq_of_lt hLower hUpper, Bytes.ofBigEndian_bigEndian,
          Nat.mod_eq_of_lt (by omega), Int.toNat_of_nonneg hLower]
  | signed width =>
      refine ((reads_take _ width).map).of_iff fun value word => ?_
      constructor
      · rintro ⟨bytes, ⟨rfl, rfl⟩, rfl⟩
        exact IntegerField.signed_of_bytes word
      · rintro ⟨⟨hLower, hUpper⟩, rfl⟩
        exact ⟨_, ⟨rfl, Bytes.bigEndian_length width _⟩, signedOfBigEndian_bigEndian hLower hUpper⟩

/-- A list of markers with the widths behind them that is the table of a family of markers. -/
theorem mem_places_iff {count : Nat} {entries : List (UInt8 × Nat)} (place : Fin count → UInt8 × Nat)
    (hEntries : entries = List.ofFn place) (entry : UInt8 × Nat) :
    entry ∈ entries ↔ ∃ index, entry = place index := by
  rw [hEntries, List.mem_ofFn]
  simp only [eq_comm]

theorem mem_unsigned_iff (entry : UInt8 × Nat) :
    entry ∈ [(0xcc, 1), (0xcd, 2), (0xce, 4), (0xcf, 8)] ↔
      ∃ place : Fin 4, entry = ((Marker.uint place).byte, Marker.widthAt place) :=
  mem_places_iff _ (by rfl) entry

theorem mem_signed_iff (entry : UInt8 × Nat) :
    entry ∈ [(0xd0, 1), (0xd1, 2), (0xd2, 4), (0xd3, 8)] ↔
      ∃ place : Fin 4, entry = ((Marker.int place).byte, Marker.widthAt place) :=
  mem_places_iff _ (by rfl) entry

/-- The integer markers are those of the grammar. -/
theorem integerField?_iff (value : Int) (word : Bytes) :
    (∃ marker field, Marker.integerField? marker = some field ∧ field.Carries value ∧
      word = marker.byte :: field.spell value) ↔ IntegerWord value word := by
  constructor
  · rintro ⟨marker, field, hField, hCarries, rfl⟩
    cases marker with
    | positiveFixint own =>
        cases hField
        obtain rfl : value = own := hCarries
        exact IntegerWord.positive (by omega) (by omega)
    | negativeFixint own =>
        cases hField
        obtain rfl : value = (own : Int) - 32 := hCarries
        have hByte : (Marker.negativeFixint own).byte = UInt8.ofNat (256 + ((own : Int) - 32)).toNat := by
          rw [Marker.byte, Marker.code]
          congr 1
          omega
        rw [hByte]
        exact IntegerWord.negative (by omega) (by omega)
    | uint width =>
        cases hField
        obtain ⟨hLower, hUpper⟩ := hCarries
        rw [IntegerField.spell, Int.emod_eq_of_lt hLower hUpper]
        exact IntegerWord.unsigned ((mem_unsigned_iff _).mpr ⟨width, rfl⟩) hLower hUpper
    | int width =>
        cases hField
        exact IntegerWord.signed ((mem_signed_iff _).mpr ⟨width, rfl⟩) hCarries.1 hCarries.2
    | _ => cases hField
  · intro h
    cases h with
    | positive hLower hUpper =>
        refine ⟨.positiveFixint ⟨value.toNat, by omega⟩, _, rfl, ?_, rfl⟩
        exact (Int.toNat_of_nonneg hLower).symm
    | negative hLower hUpper =>
        refine ⟨.negativeFixint ⟨(value + 32).toNat, by omega⟩, _, rfl, ?_, ?_⟩
        · show value = ((value + 32).toNat : Int) - 32
          omega
        · rw [IntegerField.spell, Marker.byte, Marker.code]
          congr 2
          show (256 + value).toNat = 224 + (value + 32).toNat
          omega
    | unsigned hMarker hLower hUpper =>
        obtain ⟨place, hPlace⟩ := (mem_unsigned_iff _).mp hMarker
        cases hPlace
        refine ⟨.uint place, _, rfl, ⟨hLower, hUpper⟩, ?_⟩
        rw [IntegerField.spell, Int.emod_eq_of_lt hLower hUpper]
    | signed hMarker hLower hUpper =>
        obtain ⟨place, hPlace⟩ := (mem_signed_iff _).mp hMarker
        cases hPlace
        exact ⟨.int place, _, rfl, ⟨hLower, hUpper⟩, rfl⟩

theorem capacity_widthAt_le (place : Fin 4) :
    Bytes.capacity (Marker.widthAt place) ≤ 18446744073709551616 := by
  revert place
  decide

/-- No integer form reaches below the signed 64-bit range. -/
theorem IntegerWord.lower {value : Int} {word : Bytes} (h : IntegerWord value word) :
    Int64.minValue.toInt ≤ value := by
  have hMin : Int64.minValue.toInt = -9223372036854775808 := by decide
  cases h with
  | positive | negative | unsigned => omega
  | signed hMarker hLower hUpper =>
      obtain ⟨place, hPlace⟩ := (mem_signed_iff _).mp hMarker
      cases hPlace
      have hWidth := capacity_widthAt_le place
      omega

/-- Of the integers only the widest unsigned ones reach beyond the signed 64-bit range. -/
theorem byte_of_maxValue_lt {marker : Marker} {integer : IntegerField} {value : Int}
    (hInteger : marker.integerField? = some integer) (hCarries : integer.Carries value)
    (hValue : Int64.maxValue.toInt < value) : marker.byte = 0xcf := by
  have hMax : Int64.maxValue.toInt = 9223372036854775807 := by decide
  rw [hMax] at hValue
  cases marker with
  | positiveFixint own | negativeFixint own =>
      cases hInteger
      have hOwn : value = _ := hCarries
      omega
  | int width =>
      cases hInteger
      have hWidth := capacity_widthAt_le width
      have hUpper := hCarries.2
      omega
  | uint width =>
      cases hInteger
      have hUpper := hCarries.2
      have hNarrow : ∀ place : Fin 4, (Marker.uint place).byte = 0xcf ∨
          Bytes.capacity (Marker.widthAt place) ≤ 4294967296 := by decide
      rcases hNarrow width with hByte | hWidth
      · exact hByte
      · omega
  | _ => cases hInteger

/-- An integer in any form is read to its value, or refused under its marker, which is then known. -/
theorem int64_of_word {value : Int} {form : Bytes} (hForm : IntegerWord value form) {input rest : Input}
    (hInput : input.bytes = form ++ rest.bytes) :
    int64 input = if value ≤ Int64.maxValue.toInt then .ok (Int64.ofInt value, rest) else
      .error (.unexpected .int64 0xcf) := by
  obtain ⟨own, field, hField, hCarries, rfl⟩ := (integerField?_iff value form).mpr hForm
  let atField := Input.ofBytes (field.spell value ++ rest.bytes)
  have hMarker : marker input = .ok (own, atField) := reads_marker.ok rfl hInput
  have hRead : field.read atField = .ok (value, rest) := field.reads.ok ⟨hCarries, rfl⟩ rfl
  rw [int64, bind_ok hMarker, hField]
  simp only
  rw [bind_ok hRead]
  split
  · rfl
  · next hBeyond =>
      rw [byte_of_maxValue_lt hField hCarries (Int.lt_of_not_ge hBeyond)]
      rfl

theorem reads_int64 : Reads int64 (fun value word => IntegerWord value.toInt word) := by
  refine (reads_marker.bind (fun marker result word => ∃ field value,
    marker.integerField? = some field ∧ field.Carries value ∧ word = field.spell value ∧
    value ≤ Int64.maxValue.toInt ∧ Int64.ofInt value = result) fun marker => ?_).of_iff
    fun result word => ?_
  · cases hField : marker.integerField? with
    | none => exact (reads_throw _).of_iff fun result word => by simp
    | some field =>
        refine (field.reads.bind (fun value result word => value ≤ Int64.maxValue.toInt ∧
          Int64.ofInt value = result ∧ word = []) fun value => ?_).of_iff fun result word => ?_
        · split
          · next hValue => exact (reads_pure _).of_iff fun result word => by simp [hValue, eq_comm]
          · next hValue => exact (reads_throw _).of_iff fun result word => by simp [hValue]
        · constructor
          · rintro ⟨value, front, back, ⟨hCarries, rfl⟩, ⟨hValue, rfl, rfl⟩, rfl⟩
            exact ⟨field, value, rfl, hCarries, List.append_nil _, hValue, rfl⟩
          · rintro ⟨_, value, hSame, hCarries, rfl, hValue, rfl⟩
            cases hSame
            exact ⟨value, _, [], ⟨hCarries, rfl⟩, ⟨hValue, rfl, rfl⟩, (List.append_nil _).symm⟩
  · constructor
    · rintro ⟨marker, front, back, rfl, ⟨field, value, hField, hCarries, rfl, hValue, rfl⟩, rfl⟩
      have hWord := (integerField?_iff value _).mp ⟨marker, field, hField, hCarries, rfl⟩
      rw [Int64.toInt_ofInt_of_le hWord.lower (Int.lt_add_one_of_le hValue)]
      exact hWord
    · intro hWord
      obtain ⟨marker, field, hField, hCarries, rfl⟩ := (integerField?_iff _ _).mpr hWord
      exact ⟨marker, [marker.byte], _, rfl, ⟨field, _, hField, hCarries, rfl,
        Int64.toInt_le _, Int64.ofInt_toInt _⟩, rfl⟩

end BlockFeed.MessagePack
