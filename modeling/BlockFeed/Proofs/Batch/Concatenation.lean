import BlockFeed.Proofs.Batch.Arrival

/-! Records are read on their own, from left to right. A batch is its first records and then the others,
and nothing but the number of the first ones reaches the others. -/

namespace BlockFeed

open MessagePack Reader

/-- The error as it is found behind more records, which its own index does not count. -/
def DecodeError.after (count : Nat) (error : DecodeError) : DecodeError :=
  { error with record := error.record.map fun index => count + index }

theorem DecodeError.after_after (error : DecodeError) (count more : Nat) :
    (error.after count).after more = error.after (more + count) := by
  cases error with
  | mk error index => cases index <;> simp [after, Nat.add_assoc]

namespace Batch

/-- What comes of some records where others stand in front of them. -/
def behind (front : List Record) :
    Except DecodeError (List Record × Input) → Except DecodeError (List Record × Input)
  | .ok (back, rest) => .ok (front ++ back, rest)
  | .error error => .error (error.after front.length)

/-- The bytes are the shortest front of the body with which the header is a batch, bytes behind it
being allowed. -/
structure ShortestBody (limits : Limits) (header body start : Bytes) : Prop where
  front : start <+: body
  accepted : ∃ result, decode (limits.withTrailing true) (header ++ start) = .ok result
  shortest : ∀ other result, other <+: body →
    decode (limits.withTrailing true) (header ++ other) = .ok result → start.length ≤ other.length

variable {limits : Limits}

/-- The records that are done stand in front of the result and shift the index of an error, and have no
other part in it. -/
theorem records_eq_behind (limits : Limits) (count : Nat) (done : Array Record) (input : Input) :
    records limits count done input = behind done.toList (records limits count #[] input) := by
  induction count generalizing done input with
  | zero => simp [records, behind]
  | succ others ih =>
      rw [records, records]
      cases record limits input with
      | error error => simp [behind, DecodeError.after]
      | ok outcome =>
          obtain ⟨next, rest⟩ := outcome
          simp only
          rw [ih (done.push next), ih (#[].push next)]
          cases records limits others #[] rest with
          | error error => simp [behind, DecodeError.after_after]
          | ok outcome => simp [behind]

/-- Records behind others are read as if they were the first. -/
theorem records_add_of_ok {first second : Nat} {input rest : Input} {front : List Record}
    (h : records limits first #[] input = .ok (front, rest)) :
    records limits (first + second) #[] input = behind front (records limits second #[] rest) := by
  rw [records_add, bind_ok h, records_eq_behind, List.toList_toArray]

theorem length_of_records {count : Nat} {input rest : Input} {result : List Record}
    (h : records limits count #[] input = .ok (result, rest)) : result.length = count := by
  obtain ⟨word, ⟨batch, hLength, -, -, hResult⟩, -⟩ :=
    (reads_records limits count #[] input rest result).mp h
  rw [← hResult, ← hLength]
  simp

/-- What is left behind the last record is judged in the same way whatever stands in front. -/
theorem decode_of_behind {data whole : Bytes} {front : List Record}
    (h : leading limits (Input.ofBytes whole) = behind front (leading limits (Input.ofBytes data))) :
    (∀ back, decode limits data = .ok back → decode limits whole = .ok (front ++ back)) ∧
    (∀ error, decode limits data = .error error →
      decode limits whole = .error (error.after front.length)) := by
  constructor
  · intro back hBack
    obtain ⟨rest, hLeading, hTail⟩ := decode_eq_ok_iff_leading.mp hBack
    rw [hLeading] at h
    exact decode_of_leading h hTail
  · intro error hError
    rcases decode_eq_error_iff_leading.mp hError with
      hLeading | ⟨back, rest, hLeading, hLeft, hStrict, rfl⟩
    · rw [hLeading] at h
      exact decode_of_leading_error h
    · rw [hLeading] at h
      exact decode_of_leading_trailing h hLeft hStrict

section Headers

variable {count : Nat} {header body : Bytes}

theorem leading_eq_records (hHeader : ArrayHeader count header)
    (hCount : count ≤ limits.maxRecords.toNat) (body : Bytes) :
    leading limits (Input.ofBytes (header ++ body)) = records limits count #[] (Input.ofBytes body) :=
  leading_of_header hHeader hCount rfl

/-- Where bytes behind the batch are allowed, the records alone decide. -/
theorem records_of_open_ok (hHeader : ArrayHeader count header)
    (hCount : count ≤ limits.maxRecords.toNat) {result : List Record}
    (h : decode (limits.withTrailing true) (header ++ body) = .ok result) :
    ∃ rest, records limits count #[] (Input.ofBytes body) = .ok (result, rest) := by
  obtain ⟨rest, hLeading⟩ := leading_of_ok h
  rw [leading_withTrailing, leading_eq_records hHeader hCount body] at hLeading
  exact ⟨rest, hLeading⟩

theorem records_of_open_error (hHeader : ArrayHeader count header)
    (hCount : count ≤ limits.maxRecords.toNat) {error : DecodeError}
    (h : decode (limits.withTrailing true) (header ++ body) = .error error) :
    records limits count #[] (Input.ofBytes body) = .error error := by
  have hLeading := leading_of_error rfl h
  rwa [leading_withTrailing, leading_eq_records hHeader hCount body] at hLeading

/-- The bytes that the records are read from are the fewest that hold so many. -/
theorem shortestBody_of_records (hHeader : ArrayHeader count header)
    (hCount : count ≤ limits.maxRecords.toNat) {result : List Record} {rest : Input}
    (h : records limits count #[] (Input.ofBytes body) = .ok (result, rest)) :
    ∃ start, body = start ++ rest.bytes ∧ ShortestBody limits header body start := by
  obtain ⟨start, hBody, hStart⟩ := (reads_records limits count #[]).exists_word h
  refine ⟨start, hBody, ⟨rest.bytes, hBody.symm⟩, ⟨result, ?_⟩, ?_⟩
  · have hOnly := hStart []
    rw [List.append_nil, ← leading_eq_records hHeader hCount start,
      ← leading_withTrailing limits true] at hOnly
    exact decode_of_leading hOnly (Or.inr rfl)
  · intro other result' hOther hAccepted
    obtain ⟨left, hLeft⟩ := hOther
    obtain ⟨rest', hRecords⟩ := records_of_open_ok hHeader hCount hAccepted
    obtain ⟨word, hWord, hTail⟩ := (reads_records limits count #[]).exists_word hRecords
    -- The shorter front reads on to the whole body, where the records end at one place only.
    have hWhole := hTail (rest'.bytes ++ left)
    rw [Input.bytes_ofBytes] at hWord
    rw [← List.append_assoc, ← hWord, hLeft, h] at hWhole
    cases hWhole
    have hLengths := congrArg List.length hBody
    rw [Input.bytes_ofBytes, ← hLeft, hWord] at hLengths
    simp only [List.length_append, Input.bytes_ofBytes] at hLengths
    rw [hWord, List.length_append]
    omega

end Headers

/-- A batch is decoded record by record with nothing carried over. Where its first records are not
accepted on their own the whole fails in the same way, at one of them. Otherwise the others are
decoded as a batch of their own from where the first ones end, and what comes of them is what comes of
the whole: their records behind the first ones, or their error with the index moved on. The headers
may each have any width. -/
theorem decode_concat (limits : Limits) {first second : Nat} {firstHeader secondHeader header : Bytes}
    (hFirst : ArrayHeader first firstHeader) (hSecond : ArrayHeader second secondHeader)
    (hHeader : ArrayHeader (first + second) header)
    (hCount : first + second ≤ limits.maxRecords.toNat) (body : Bytes) :
    (∀ error, decode (limits.withTrailing true) (firstHeader ++ body) = .error error →
      decode limits (header ++ body) = .error error ∧
        ∃ index, error.record = some index ∧ index < first) ∧
    (∀ front, decode (limits.withTrailing true) (firstHeader ++ body) = .ok front →
      ∃ start rest, body = start ++ rest ∧ ShortestBody limits firstHeader body start ∧
        (∀ back, decode limits (secondHeader ++ rest) = .ok back →
          decode limits (header ++ body) = .ok (front ++ back)) ∧
        (∀ error, decode limits (secondHeader ++ rest) = .error error →
          decode limits (header ++ body) = .error (error.after first))) := by
  have hFew : first ≤ limits.maxRecords.toNat := by omega
  have hOthers : second ≤ limits.maxRecords.toNat := by omega
  constructor
  · intro error hError
    have hRecords := records_of_open_error hFirst hFew hError
    obtain ⟨index, hIndex, -, hUpper⟩ := record_of_records_error hRecords
    refine ⟨decode_of_leading_error ?_, index, hIndex, by simpa using hUpper⟩
    rw [leading_eq_records hHeader hCount, records_add]
    exact bind_error hRecords
  · intro front hFront
    obtain ⟨rest, hRecords⟩ := records_of_open_ok hFirst hFew hFront
    obtain ⟨start, hBody, hShortest⟩ := shortestBody_of_records hFirst hFew hRecords
    refine ⟨start, rest.bytes, hBody, hShortest, ?_⟩
    rw [← length_of_records hRecords]
    refine decode_of_behind ?_
    rw [leading_eq_records hHeader hCount, leading_eq_records hSecond hOthers,
      records_add_of_ok hRecords, Input.eq_of_bytes_eq (Input.bytes_ofBytes rest.bytes)]

/-- An empty record and behind it one whose entry is named by the reserved byte. -/
theorem decode_concat_second_record_bad :
    ArrayHeader 1 [0x91] ∧ ArrayHeader 1 [0xdc, 0, 1] ∧ ArrayHeader (1 + 1) [0x92] ∧
      decode .standard ([0xdc, 0, 1] ++ [0x81, 0xc1, 0]) =
        .error ⟨⟨.key, .fault .reserved⟩, some 0⟩ ∧
      decode .standard ([0x92] ++ [0x80, 0x81, 0xc1, 0]) =
        .error ⟨⟨.key, .fault .reserved⟩, some 1⟩ := by
  have hFirst : ArrayHeader 1 [0x91] := CountWord.short (by decide)
  have hSecond : ArrayHeader 1 [0xdc, 0, 1] :=
    CountWord.wide (show ((0xdc : UInt8), 2) ∈ [(0xdc, 2), (0xdd, 4)] by decide) (by decide)
  have hHeader : ArrayHeader (1 + 1) [0x92] := CountWord.short (by decide)
  have hBad : decode .standard ([0xdc, 0, 1] ++ [0x81, 0xc1, 0]) =
      .error ⟨⟨.key, .fault .reserved⟩, some 0⟩ := by rfl
  obtain ⟨-, hOk⟩ := decode_concat .standard hFirst hSecond hHeader (by decide) [0x80, 0x81, 0xc1, 0]
  obtain ⟨start, rest, hBody, hStart, -, hError⟩ := hOk [{}] (by rfl)
  have hLength : start.length ≤ 1 := hStart.shortest [0x80] [{}] (by decide) (by rfl)
  have hRest : rest = [0x81, 0xc1, 0] := by
    rcases start with _ | ⟨byte, _ | ⟨next, others⟩⟩
    · obtain ⟨result, hResult⟩ := hStart.accepted
      cases hResult
    · cases hBody
      rfl
    · simp at hLength
  rw [hRest] at hError
  exact ⟨hFirst, hSecond, hHeader, hBad, hError _ hBad⟩

end Batch

end BlockFeed
