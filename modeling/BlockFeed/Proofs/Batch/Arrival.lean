import BlockFeed.Proofs.Batch.Stability
import Mathlib.Data.Nat.Find

/-! Batches whose bytes arrive over time. While too few are there the outcome is a truncation, and from
some byte on it is settled: what arrives later can only be left over. -/

namespace BlockFeed.Batch

open Reader

/-- The bytes ran out. -/
def IsTruncated (outcome : Except DecodeError (List Record)) : Prop :=
  ∃ error, outcome = .error error ∧ error.kind = .truncated

/-- The outcome on the first `count` bytes, with bytes behind the batch allowed or not. -/
def arrived (limits : Limits) (allow : Bool) (data : Bytes) (count : Nat) :
    Except DecodeError (List Record) :=
  decode (limits.withTrailing allow) (data.take count)

/-- The outcome on the first bytes of the data is settled from byte `count` on, and not before, where
`data.length + 1` stands for never. -/
structure SettledFrom (limits : Limits) (data : Bytes) (count : Nat) : Prop where
  bound : count ≤ data.length + 1
  early : ∀ k < count, IsTruncated (arrived limits true data k)
  late : ∀ k, count ≤ k → k ≤ data.length →
    arrived limits true data k = arrived limits true data count ∧
      ¬IsTruncated (arrived limits true data count)
  progress : ∀ k k' error error', k < k' → k' < count →
    arrived limits true data k = .error error → arrived limits true data k' = .error error' →
      ∀ index, error.record = some index → ∃ index', error'.record = some index' ∧ index ≤ index'
  earlyStrict : ∀ k ≤ count, arrived limits false data k = arrived limits true data k
  lateError : ∀ k error, count < k → k ≤ data.length →
    arrived limits true data count = .error error → arrived limits false data k = .error error
  lateOk : ∀ k result, count < k → k ≤ data.length →
    arrived limits true data count = .ok result →
      IsMalformed (arrived limits false data k) ⟨⟨.batch, .trailingBytes (k - count)⟩, none⟩
        s!"{k - count} trailing bytes after the last record"

variable {limits : Limits} {data more : Bytes}

theorem leading_of_ok {result : List Record} (h : decode limits data = .ok result) :
    ∃ rest, leading limits (Input.ofBytes data) = .ok (result, rest) := by
  obtain ⟨rest, hLeading, -⟩ := decode_eq_ok_iff_leading.mp h
  exact ⟨rest, hLeading⟩

theorem leading_of_error {error : DecodeError} (hAllow : limits.allowTrailing = true)
    (h : decode limits data = .error error) : leading limits (Input.ofBytes data) = .error error := by
  rcases decode_eq_error_iff_leading.mp h with hLeading | ⟨_, _, -, -, hStrict, -⟩
  · exact hLeading
  · rw [hAllow] at hStrict
    cases hStrict

theorem extends_append (data more : Bytes) :
    Input.Extends more (Input.ofBytes data) (Input.ofBytes (data ++ more)) := rfl

/-- An error that is no truncation is found again in more bytes. -/
theorem leading_append_of_error {error : DecodeError}
    (h : leading limits (Input.ofBytes data) = .error error) (hKind : error.kind ≠ .truncated) :
    leading limits (Input.ofBytes (data ++ more)) = .error error := by
  have hStable := stable_leading limits _ _ (extends_append data more)
  rw [h] at hStable
  generalize leading limits (Input.ofBytes (data ++ more)) = outcome at hStable
  cases hStable with
  | error => rfl
  | tolerated hTruncated => exact absurd hTruncated hKind

/-- With bytes behind the batch allowed, an outcome that is no truncation is final. -/
theorem decode_append (hAllow : limits.allowTrailing = true)
    (h : ¬IsTruncated (decode limits data)) : decode limits (data ++ more) = decode limits data := by
  cases hOutcome : decode limits data with
  | error error =>
      have hKind : error.kind ≠ .truncated := fun hKind => h ⟨error, hOutcome, hKind⟩
      exact decode_of_leading_error
        (leading_append_of_error (leading_of_error hAllow hOutcome) hKind)
  | ok result =>
      obtain ⟨rest, hLeading⟩ := leading_of_ok hOutcome
      obtain ⟨word, hData, hWord⟩ := (reads_leading limits).exists_word hLeading
      have hWhole := hWord (rest.bytes ++ more)
      rw [← List.append_assoc, ← hData] at hWhole
      exact decode_of_leading hWhole (Or.inr hAllow)

theorem take_split (data : Bytes) {k k' : Nat} (hLe : k ≤ k') :
    data.take k' = data.take k ++ (data.take k').drop k := by
  conv_lhs => rw [← List.take_append_drop k (data.take k'), List.take_take, Nat.min_eq_left hLe]

theorem arrived_mono {k k' : Nat} (hLe : k ≤ k') (h : ¬IsTruncated (arrived limits true data k)) :
    arrived limits true data k' = arrived limits true data k := by
  rw [arrived, take_split data hLe]
  exact decode_append rfl h

/-- A truncation does not depend on what may stand behind the batch, nor does any other error found
while reading it. -/
theorem arrived_strict_of_error {k : Nat} {error : DecodeError}
    (h : arrived limits true data k = .error error) : arrived limits false data k = .error error := by
  have hLeading := leading_of_error rfl h
  rw [leading_withTrailing] at hLeading
  refine decode_of_leading_error ?_
  rwa [leading_withTrailing]

/-- The first bytes that hold a batch hold nothing else. -/
theorem leading_take_of_first {count : Nat} {result : List Record}
    (hEarly : ∀ k < count, IsTruncated (arrived limits true data k))
    (h : arrived limits true data count = .ok result) :
    leading limits (Input.ofBytes (data.take count)) = .ok (result, Input.ofBytes []) := by
  obtain ⟨rest, hLeading⟩ := leading_of_ok h
  rw [leading_withTrailing] at hLeading
  obtain ⟨word, hData, hWord⟩ := (reads_leading limits).exists_word hLeading
  rw [Input.bytes_ofBytes] at hData
  have hCount : count ≤ word.length := by
    by_contra hShort
    obtain ⟨error, hError, -⟩ := hEarly word.length (by omega)
    have hTake : data.take word.length = word := by
      have hPrefix : word <+: data.take count := ⟨rest.bytes, hData.symm⟩
      exact (List.prefix_iff_eq_take.mp (hPrefix.trans (List.take_prefix count data))).symm
    have hOk := hWord []
    rw [List.append_nil, ← leading_withTrailing limits true] at hOk
    rw [arrived, hTake, decode_of_leading hOk (Or.inl rfl)] at hError
    cases hError
  have hLength := congrArg List.length hData
  rw [List.length_take, List.length_append] at hLength
  have hNil : rest.bytes = [] := List.eq_nil_of_length_eq_zero (by omega)
  have hRest : rest = Input.ofBytes [] := Input.eq_of_bytes_eq hNil
  rw [← hRest]
  exact hLeading

theorem settledFrom_of_first {count : Nat} (hBound : count ≤ data.length + 1)
    (hEarly : ∀ k < count, IsTruncated (arrived limits true data k))
    (hLate : count ≤ data.length → ¬IsTruncated (arrived limits true data count)) :
    SettledFrom limits data count where
  bound := hBound
  early := hEarly
  late k hCount hLength := by
    have hSettled := hLate (Nat.le_trans hCount hLength)
    exact ⟨arrived_mono hCount hSettled, hSettled⟩
  progress k k' error error' hLt hCount hShort hLong index hIndex := by
    have hLonger : Input.Extends ((data.take k').drop k) (Input.ofBytes (data.take k))
        (Input.ofBytes (data.take k')) := take_split data (Nat.le_of_lt hLt)
    exact leading_error_mono hLonger (leading_of_error rfl hShort) (leading_of_error rfl hLong) hIndex
  earlyStrict k hLe := by
    cases hOpen : arrived limits true data k with
    | error error => exact arrived_strict_of_error hOpen
    | ok result =>
        obtain rfl : k = count := by
          refine Nat.le_antisymm hLe (Nat.le_of_not_lt fun hLt => ?_)
          obtain ⟨error, hError, -⟩ := hEarly k hLt
          rw [hOpen] at hError
          cases hError
        have hLeading := leading_take_of_first hEarly hOpen
        rw [← leading_withTrailing limits false] at hLeading
        exact decode_of_leading hLeading (Or.inl rfl)
  lateError k error hLt hLength hError := by
    have hSettled := hLate (by omega)
    refine arrived_strict_of_error ?_
    rw [arrived_mono (Nat.le_of_lt hLt) hSettled, hError]
  lateOk k result hLt hLength hOk := by
    have hFirst := leading_take_of_first hEarly hOk
    obtain ⟨word, hData, hWord⟩ := (reads_leading limits).exists_word hFirst
    have hWhole := hWord ((data.take k).drop count)
    rw [Input.bytes_ofBytes, Input.bytes_ofBytes, List.append_nil] at hData
    rw [← hData, ← take_split data (Nat.le_of_lt hLt), ← leading_withTrailing limits false] at hWhole
    have hLeft : ((data.take k).drop count).length = k - count := by
      rw [List.length_drop, List.length_take]
      omega
    have hTail : (Input.ofBytes ((data.take k).drop count)).bytes ≠ [] := by
      intro hNil
      rw [Input.bytes_ofBytes] at hNil
      rw [hNil, List.length_nil] at hLeft
      omega
    rw [← hLeft]
    exact ⟨decode_of_leading_trailing hWhole hTail rfl, rfl⟩

/-- Decoding is stable as bytes arrive. On growing fronts of the data it is truncated up to some
byte, at records that never go back, and settled from there on. Hence no accepted batch is a proper
front of another where nothing may stand behind it, and where anything may, every outcome but a
truncation is final. -/
theorem decode_settles (limits : Limits) (data : Bytes) :
    (∃ count, SettledFrom limits data count) ∧
    (limits.allowTrailing = false → ∀ more first second, decode limits data = .ok first →
      decode limits (data ++ more) = .ok second → more = []) ∧
    (limits.allowTrailing = true → ¬IsTruncated (decode limits data) →
      ∀ more, decode limits (data ++ more) = decode limits data) := by
  refine ⟨?_, ?_, fun hAllow h more => decode_append hAllow h⟩
  · have hExists : ∃ n, n = data.length + 1 ∨ ¬IsTruncated (arrived limits true data n) :=
      ⟨data.length + 1, Or.inl rfl⟩
    classical
    refine ⟨Nat.find hExists, settledFrom_of_first (Nat.find_min' hExists (Or.inl rfl)) ?_ ?_⟩
    · intro k hLess
      have hMin := Nat.find_min hExists hLess
      exact not_not.mp (not_or.mp hMin).2
    · intro hLength
      rcases Nat.find_spec hExists with hNever | hSettled
      · omega
      · exact hSettled
  · intro hAllow more first second hFirst hSecond
    obtain ⟨rest, hLeading, hTail⟩ := decode_eq_ok_iff_leading.mp hFirst
    have hNil : rest.bytes = [] := by simpa [hAllow] using hTail
    obtain ⟨word, hData, hWord⟩ := (reads_leading limits).exists_word hLeading
    rw [hNil, List.append_nil, Input.bytes_ofBytes] at hData
    by_contra hMore
    have hRefused := decode_of_leading_trailing (hWord more) hMore hAllow
    rw [← hData, hSecond] at hRefused
    cases hRefused

end BlockFeed.Batch
