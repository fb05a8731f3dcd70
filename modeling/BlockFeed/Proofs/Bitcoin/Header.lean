import BlockFeed.Bitcoin.Header

/-! Headers in both directions. The fields of a header lie one behind the other in its bytes, so a header
is read from data exactly when its bytes are the first of the data. -/

namespace BlockFeed.Bitcoin.Header

/-- The number in four bytes of the data has these bytes. -/
theorem littleEndian_wordAt {data : Bytes} {offset : Nat} (h : offset + 4 ≤ data.length) :
    Bytes.littleEndian 4 (wordAt data offset).toNat = (data.drop offset).take 4 := by
  have hLength : ((data.drop offset).take 4).length = 4 := by
    rw [List.length_take, List.length_drop]
    omega
  have hValue := Bytes.ofLittleEndian_lt ((data.drop offset).take 4)
  have hSpelled := Bytes.littleEndian_ofLittleEndian ((data.drop offset).take 4)
  rw [hLength] at hValue hSpelled
  rw [wordAt, UInt32.toNat_ofNat_of_lt' hValue]
  exact hSpelled

theorem littleEndian_word_injective {first second : UInt32}
    (h : Bytes.littleEndian 4 first.toNat = Bytes.littleEndian 4 second.toNat) : first = second := by
  have hValue := congrArg Bytes.ofLittleEndian h
  have hCapacity : Bytes.capacity 4 = UInt32.size := by decide
  rw [Bytes.ofLittleEndian_littleEndian, Bytes.ofLittleEndian_littleEndian, hCapacity,
    Nat.mod_eq_of_lt first.toNat_lt, Nat.mod_eq_of_lt second.toNat_lt] at hValue
  exact UInt32.toNat_inj.mp hValue

/-- Different headers have different bytes, as each field has its own width. -/
theorem bytes_injective {first second : Header} (h : first.bytes = second.bytes) : first = second := by
  have hWord (word word' : UInt32) : (Bytes.littleEndian 4 word.toNat).length =
      (Bytes.littleEndian 4 word'.toNat).length := by
    rw [Bytes.littleEndian_length, Bytes.littleEndian_length]
  have hHash (hash hash' : Hash) : hash.bytes.length = hash'.bytes.length := by
    rw [hash.bytes_length, hash'.bytes_length]
  simp only [bytes, List.append_assoc] at h
  obtain ⟨hVersion, h⟩ := List.append_inj h (hWord _ _)
  obtain ⟨hPrevious, h⟩ := List.append_inj h (hHash _ _)
  obtain ⟨hMerkle, h⟩ := List.append_inj h (hHash _ _)
  obtain ⟨hTime, h⟩ := List.append_inj h (hWord _ _)
  obtain ⟨hBits, hNonce⟩ := List.append_inj h (hWord _ _)
  have hSigned := congrArg UInt32.toInt32 (littleEndian_word_injective hVersion)
  rw [Int32.toInt32_toUInt32, Int32.toInt32_toUInt32] at hSigned
  ext1
  · exact hSigned
  · exact Hash.ext hPrevious
  · exact Hash.ext hMerkle
  · exact littleEndian_word_injective hTime
  · exact littleEndian_word_injective hBits
  · exact littleEndian_word_injective hNonce

theorem ofBytes_of_short {data : Bytes} (h : data.length < size) :
    ofBytes data = .error (.insufficientBytes .header) :=
  dif_neg (Nat.not_le.mpr h)

/-- The header that is read from enough data has the first bytes of the data. -/
theorem exists_of_size_le {data : Bytes} (h : size ≤ data.length) :
    ∃ header, ofBytes data = .ok header ∧ header.bytes = data.take size := by
  have hEnough : 80 ≤ data.length := h
  refine ⟨_, dif_pos h, ?_⟩
  have hSize : size = 4 + 32 + 32 + 4 + 4 + 4 := rfl
  simp only [bytes, hashAt, UInt32.toUInt32_toInt32]
  rw [littleEndian_wordAt (by omega), littleEndian_wordAt (by omega), littleEndian_wordAt (by omega),
    littleEndian_wordAt (by omega), hSize]
  simp only [List.take_add, List.drop_zero]

theorem ofBytes_eq_ok_iff {data : Bytes} {header : Header} :
    ofBytes data = .ok header ↔ header.bytes <+: data := by
  constructor
  · intro h
    by_cases hSize : size ≤ data.length
    · obtain ⟨own, hOwn, hBytes⟩ := exists_of_size_le hSize
      rw [hOwn] at h
      cases h
      rw [hBytes]
      exact List.take_prefix size data
    · rw [ofBytes_of_short (Nat.lt_of_not_le hSize)] at h
      cases h
  · intro h
    have hSize : size ≤ data.length := header.bytes_length ▸ h.length_le
    obtain ⟨own, hOwn, hBytes⟩ := exists_of_size_le hSize
    have hFront : header.bytes = data.take size := header.bytes_length ▸ List.prefix_iff_eq_take.mp h
    rw [hOwn, bytes_injective (hBytes.trans hFront.symm)]

theorem ofBytes_bytes_append (header : Header) (rest : Bytes) :
    ofBytes (header.bytes ++ rest) = .ok header := by
  rw [ofBytes_eq_ok_iff]
  exact List.prefix_append _ _

/-- A header is refused for one reason only. -/
theorem ofBytes_eq_error {data : Bytes} {error : BlockError} (h : ofBytes data = .error error) :
    data.length < size ∧ error = .insufficientBytes .header := by
  rcases Nat.lt_or_ge data.length size with hShort | hLong
  · rw [ofBytes_of_short hShort] at h
    cases h
    exact ⟨hShort, rfl⟩
  · obtain ⟨header, hHeader, -⟩ := exists_of_size_le hLong
    rw [hHeader] at h
    cases h

theorem ofBytes_eq_error_iff {data : Bytes} :
    ofBytes data = .error (.insufficientBytes .header) ↔ data.length < size := by
  constructor
  · intro h
    exact (ofBytes_eq_error h).1
  · exact ofBytes_of_short

/-- The bytes that a header is read from are its own, and nothing behind them is. -/
theorem exists_ofBytes_iff {data : Bytes} :
    (∃ header, ofBytes data = .ok header ∧ header.bytes = data.take size) ↔ size ≤ data.length := by
  constructor
  · rintro ⟨header, -, hBytes⟩
    have hLength := congrArg List.length hBytes
    simp only [bytes_length, List.length_take] at hLength
    omega
  · exact exists_of_size_le

theorem exists_common_iff {first second : Bytes} :
    (∃ header, ofBytes first = .ok header ∧ ofBytes second = .ok header) ↔
      size ≤ first.length ∧ size ≤ second.length ∧ first.take size = second.take size := by
  constructor
  · rintro ⟨header, hFirst, hSecond⟩
    have hFront := ofBytes_eq_ok_iff.mp hFirst
    have hFront' := ofBytes_eq_ok_iff.mp hSecond
    have hTake := List.prefix_iff_eq_take.mp hFront
    have hTake' := List.prefix_iff_eq_take.mp hFront'
    rw [bytes_length] at hTake hTake'
    refine ⟨?_, ?_, hTake.symm.trans hTake'⟩
    · simpa using hFront.length_le
    · simpa using hFront'.length_le
  · rintro ⟨hFirst, hSecond, hTake⟩
    obtain ⟨header, hHeader, hBytes⟩ := exists_of_size_le hFirst
    refine ⟨header, hHeader, ?_⟩
    rw [ofBytes_eq_ok_iff, hBytes, hTake]
    exact List.take_prefix size second

/-- Headers and strings of 80 bytes are the same thing. A header is read back from its bytes whatever
stands behind them, at least 80 bytes are read to the header whose bytes the first 80 of them are, and
fewer are reported as bytes that a block header is missing. So two byte strings hold the same header
exactly when their first 80 bytes are the same. -/
theorem ofBytes_inverse :
    (∀ (header : Header) (rest : Bytes), ofBytes (header.bytes ++ rest) = .ok header) ∧
    (∀ data : Bytes, (∃ header, ofBytes data = .ok header ∧ header.bytes = data.take 80) ↔
      80 ≤ data.length) ∧
    (∀ data : Bytes, ofBytes data = .error (.insufficientBytes .header) ↔ data.length < 80) ∧
    (∀ (data : Bytes) (part : BlockPart), ofBytes data = .error (.insufficientBytes part) →
      part.text = "block header") ∧
    ∀ first second : Bytes, (∃ header, ofBytes first = .ok header ∧ ofBytes second = .ok header) ↔
      80 ≤ first.length ∧ 80 ≤ second.length ∧ first.take 80 = second.take 80 := by
  refine ⟨ofBytes_bytes_append, fun data => ?_, fun data => ?_, fun data part h => ?_,
    fun first second => ?_⟩
  · exact exists_ofBytes_iff
  · exact ofBytes_eq_error_iff
  · cases (ofBytes_eq_error h).2
    rfl
  · exact exists_common_iff

end BlockFeed.Bitcoin.Header
