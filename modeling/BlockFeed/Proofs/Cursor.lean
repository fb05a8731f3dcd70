import BlockFeed.Proofs.Reading

/-! Byte strings read at a position of 64 bits. Numbers of 64 bits wrap, and each computation on them is
recorded with its operands, so that the record tells whether wrapping ever made a difference. A cursor
reader tracks a reader of inputs when it has the same outcomes and records exact computations only. -/

namespace BlockFeed

/-- A computation on 64-bit numbers. `slice` is a part of the data that is looked at, from its first
byte to behind its last one, and `admitted` are pending values found to be no more than the bytes left. -/
inductive Operation
  | difference (whole part : UInt64)
  | sum (first second : UInt64)
  | product (first second : UInt64)
  | slice (start stop : UInt64)
  | admitted (pending left : UInt64)
  deriving DecidableEq, Repr

/-- The computation is the one on natural numbers, and what is looked at lies within the data. -/
def Operation.Exact (size : Nat) : Operation → Prop
  | difference whole part => part ≤ whole
  | sum first second => first.toNat + second.toNat < UInt64.size
  | product first second => first.toNat * second.toNat < UInt64.size
  | slice start stop => start ≤ stop ∧ stop.toNat ≤ size
  | admitted pending left => 0 < pending ∧ pending ≤ left

/-- A computation, and the position at which it is made. -/
structure Event where
  position : UInt64
  operation : Operation
  deriving DecidableEq, Repr

/-- A position in a byte string, and what has been computed so far, last first. -/
structure Cursor where
  data : Bytes
  position : UInt64
  history : List Event

/-- A reader of a cursor answers a value or an error, and the cursor in either case. -/
abbrev CursorReader (ε : Type) := ExceptT ε (StateM Cursor)

namespace Cursor

variable {ε ε' α β : Type}

/-- The cursor in front of a byte string. -/
def ofBytes (data : Bytes) : Cursor := ⟨data, 0, []⟩

/-- The number of bytes behind the position. -/
def left (cursor : Cursor) : UInt64 := UInt64.ofNat cursor.data.length - cursor.position

/-- The bytes behind the position. -/
def input (cursor : Cursor) : Input := Input.ofBytes (cursor.data.drop cursor.position.toNat)

/-- The cursor with one more computation in its history. -/
def note (cursor : Cursor) (operation : Operation) : Cursor :=
  { cursor with history := ⟨cursor.position, operation⟩ :: cursor.history }

/-- The cursor at another position. -/
def goto (cursor : Cursor) (position : UInt64) : Cursor := { cursor with position }

/-- Answers the value of a computation, and records the computation. -/
def compute (operation : Operation) (value : α) : CursorReader ε α := fun cursor =>
  (.ok value, cursor.note operation)

/-- The sum of two numbers. -/
def add (first second : UInt64) : CursorReader ε UInt64 :=
  compute (.sum first second) (first + second)

/-- The sum of two numbers, or the largest number where that is less. -/
def addSaturating (first second : UInt64) : CursorReader ε UInt64 :=
  compute (.sum first second)
    (UInt64.ofNat (min (first.toNat + second.toNat) (UInt64.size - 1)))

/-- The difference of two numbers. -/
def sub (whole part : UInt64) : CursorReader ε UInt64 :=
  compute (.difference whole part) (whole - part)

/-- The product of two numbers. -/
def mul (first second : UInt64) : CursorReader ε UInt64 :=
  compute (.product first second) (first * second)

/-- The number of bytes still to be read. -/
def remaining : CursorReader ε UInt64 := fun cursor =>
  sub (UInt64.ofNat cursor.data.length) cursor.position cursor

/-- The bytes from the position to another one, which becomes the position. -/
def takeTo (stop : UInt64) : CursorReader ε Bytes := fun cursor =>
  let taken := (cursor.data.take stop.toNat).drop cursor.position.toNat
  (.ok taken, (cursor.note (.slice cursor.position stop)).goto stop)

/-- The position. -/
def here : CursorReader ε UInt64 := fun cursor => (.ok cursor.position, cursor)

/-- The next `count` bytes, or the given error when there are fewer. -/
def take (missing : ε) (count : UInt64) : CursorReader ε Bytes := do
  let rest ← remaining
  if rest < count then
    throw missing
  else
    let start ← here
    let stop ← add start count
    takeTo stop

/-- The same reader with its errors put in other terms. -/
def mapError (f : ε → ε') (reader : CursorReader ε α) : CursorReader ε' α := fun cursor =>
  match reader cursor with
  | (.ok value, after) => (.ok value, after)
  | (.error error, after) => (.error (f error), after)

/-- Nothing has been computed that wrapped, and the position has never gone back. -/
structure Sound (cursor : Cursor) : Prop where
  length_lt : cursor.data.length < 2 ^ 63
  position_le : cursor.position.toNat ≤ cursor.data.length
  exact : ∀ event ∈ cursor.history,
    event.position ≤ cursor.position ∧ event.operation.Exact cursor.data.length
  ordered : cursor.history.Pairwise fun later earlier => earlier.position ≤ later.position

section Laws

variable {first : CursorReader ε α} {second : α → CursorReader ε β} {cursor after : Cursor}

theorem bind_ok {value : α} (h : first cursor = (.ok value, after)) :
    (first >>= second) cursor = second value after := by
  simp only [bind, ExceptT.bind, ExceptT.mk, StateT.bind, h, ExceptT.bindCont]

theorem bind_error {error : ε} (h : first cursor = (.error error, after)) :
    (first >>= second) cursor = (.error error, after) := by
  simp only [bind, ExceptT.bind, ExceptT.mk, StateT.bind, h, ExceptT.bindCont]
  rfl

/-- A sequence of two readers succeeds when each does, the second where the first stopped. -/
theorem bind_eq_ok {result : β} (h : (first >>= second) cursor = (.ok result, after)) :
    ∃ value middle, first cursor = (.ok value, middle) ∧ second value middle = (.ok result, after) := by
  rcases hFirst : first cursor with ⟨outcome, middle⟩
  cases outcome with
  | ok value =>
      rw [bind_ok hFirst] at h
      exact ⟨value, middle, rfl, h⟩
  | error error =>
      rw [bind_error hFirst] at h
      cases h

/-- The cursor behind the next `count` bytes, where there are as many. -/
def past (cursor : Cursor) (count : UInt64) : Cursor :=
  let stop := cursor.position + count
  ((((cursor.note (.difference (UInt64.ofNat cursor.data.length) cursor.position)).note
    (.sum cursor.position count)).note (.slice cursor.position stop))).goto stop

/-- What is taken, whatever wraps. -/
theorem take_eq (missing : ε) (count : UInt64) (cursor : Cursor) : take missing count cursor =
    if cursor.left < count then
      (.error missing, cursor.note (.difference (UInt64.ofNat cursor.data.length) cursor.position))
    else
      (.ok ((cursor.data.take (cursor.position + count).toNat).drop cursor.position.toNat),
        cursor.past count) := by
  show (if cursor.left < count then throw missing else _ : CursorReader ε Bytes) _ = _
  split <;> rfl

theorem left_past {count : UInt64} (h : count ≤ cursor.left) :
    (cursor.past count).left.toNat + count.toNat = cursor.left.toNat := by
  have hLeft : (cursor.past count).left = cursor.left - count := by
    show UInt64.ofNat cursor.data.length - (cursor.position + count) = _
    rw [left]
    grind
  rw [hLeft, UInt64.toNat_sub_of_le _ _ h]
  have hLe := UInt64.le_iff_toNat_le.mp h
  omega

end Laws

/-- A cursor reader that leaves no more than it found. -/
def NonGrowing (reader : CursorReader ε α) : Prop :=
  ∀ ⦃cursor value after⦄, reader cursor = (.ok value, after) → after.left.toNat ≤ cursor.left.toNat

/-- A cursor reader that takes at least one byte whenever it succeeds. -/
def Advances (reader : CursorReader ε α) : Prop :=
  ∀ ⦃cursor value after⦄, reader cursor = (.ok value, after) → after.left.toNat < cursor.left.toNat

section Progress

variable {first : CursorReader ε α} {second : α → CursorReader ε β}

theorem nonGrowing_pure (value : α) : NonGrowing (pure value : CursorReader ε α) := by
  intro cursor result after h
  cases h
  exact Nat.le_refl _

theorem nonGrowing_throw (error : ε) : NonGrowing (throw error : CursorReader ε α) := by
  intro cursor result after h
  cases h

theorem nonGrowing_compute (operation : Operation) (value : α) :
    NonGrowing (compute operation value : CursorReader ε α) := by
  intro cursor result after h
  cases h
  exact Nat.le_refl _

theorem left_of_take {missing : ε} {count : UInt64} {cursor after : Cursor} {bytes : Bytes}
    (h : take missing count cursor = (.ok bytes, after)) :
    after.left.toNat + count.toNat = cursor.left.toNat := by
  rw [take_eq] at h
  split at h
  · cases h
  · next hEnough =>
      cases h
      exact left_past (UInt64.not_lt.mp hEnough)

theorem nonGrowing_take (missing : ε) (count : UInt64) : NonGrowing (take missing count) := by
  intro cursor bytes after h
  have hLeft := left_of_take h
  omega

theorem NonGrowing.bind (hHead : NonGrowing first) (hTail : ∀ value, NonGrowing (second value)) :
    NonGrowing (first >>= second) := by
  intro cursor result after h
  obtain ⟨value, middle, hFirst, hSecond⟩ := bind_eq_ok h
  exact Nat.le_trans (hTail value hSecond) (hHead hFirst)

theorem Advances.bind (hHead : Advances first) (hTail : ∀ value, NonGrowing (second value)) :
    Advances (first >>= second) := by
  intro cursor result after h
  obtain ⟨value, middle, hFirst, hSecond⟩ := bind_eq_ok h
  exact Nat.lt_of_le_of_lt (hTail value hSecond) (hHead hFirst)

end Progress

namespace Sound

variable {cursor : Cursor}

theorem ofBytes {data : Bytes} (h : data.length < 2 ^ 63) : (Cursor.ofBytes data).Sound where
  length_lt := h
  position_le := Nat.zero_le _
  exact := by simp [Cursor.ofBytes]
  ordered := List.Pairwise.nil

theorem length_toNat (h : cursor.Sound) :
    (UInt64.ofNat cursor.data.length).toNat = cursor.data.length := by
  have hLength := h.length_lt
  rw [UInt64.toNat_ofNat_of_lt']
  rw [UInt64.size]
  omega

theorem position_le_length (h : cursor.Sound) :
    cursor.position ≤ UInt64.ofNat cursor.data.length := by
  rw [UInt64.le_iff_toNat_le, h.length_toNat]
  exact h.position_le

theorem left_toNat (h : cursor.Sound) :
    cursor.left.toNat = cursor.data.length - cursor.position.toNat := by
  rw [left, UInt64.toNat_sub_of_le _ _ h.position_le_length, h.length_toNat]

theorem left_eq_size (h : cursor.Sound) : cursor.left.toNat = cursor.input.size := by
  rw [h.left_toNat, input, Input.size_ofBytes, List.length_drop]

theorem note (h : cursor.Sound) {operation : Operation} (hExact : operation.Exact cursor.data.length) :
    (cursor.note operation).Sound where
  length_lt := h.length_lt
  position_le := h.position_le
  exact := by
    intro event hEvent
    rcases List.mem_cons.mp hEvent with rfl | hOld
    · exact ⟨UInt64.le_refl _, hExact⟩
    · exact h.exact event hOld
  ordered := List.pairwise_cons.mpr ⟨fun event hEvent => (h.exact event hEvent).1, h.ordered⟩

theorem goto (h : cursor.Sound) {position : UInt64} (hForward : cursor.position ≤ position)
    (hInside : position.toNat ≤ cursor.data.length) : (cursor.goto position).Sound where
  length_lt := h.length_lt
  position_le := hInside
  exact := fun event hEvent =>
    ⟨UInt64.le_trans (h.exact event hEvent).1 hForward, (h.exact event hEvent).2⟩
  ordered := h.ordered

/-- Nothing wraps on the way past bytes that are there. -/
theorem stop_toNat (h : cursor.Sound) {count : UInt64} (hEnough : count ≤ cursor.left) :
    cursor.position.toNat + count.toNat ≤ cursor.data.length ∧
      (cursor.position + count).toNat = cursor.position.toNat + count.toNat := by
  have hLeft := h.left_toNat
  have hLength := h.length_lt
  have hPosition := h.position_le
  have hCount := UInt64.le_iff_toNat_le.mp hEnough
  have hStop : cursor.position.toNat + count.toNat ≤ cursor.data.length := by omega
  refine ⟨hStop, ?_⟩
  rw [UInt64.toNat_add, Nat.mod_eq_of_lt]
  omega

theorem past (h : cursor.Sound) {count : UInt64} (hEnough : count ≤ cursor.left) :
    (cursor.past count).Sound := by
  obtain ⟨hInside, hStop⟩ := h.stop_toNat hEnough
  have hForward : cursor.position ≤ cursor.position + count := by
    rw [UInt64.le_iff_toNat_le, hStop]
    exact Nat.le_add_right _ _
  have hLength := h.length_lt
  refine Sound.goto (((h.note ?_).note ?_).note ?_) hForward (hStop ▸ hInside)
  · exact h.position_le_length
  · show cursor.position.toNat + count.toNat < UInt64.size
    rw [UInt64.size]
    omega
  · exact ⟨hForward, hStop ▸ hInside⟩

end Sound

/-- The outcome of a reader and of a cursor reader are the same, up to how values are written, and the
cursor has computed nothing that wrapped. -/
inductive Agrees (data : Bytes) (Same : α → β → Prop) :
    Except ε (α × Input) → Except ε β × Cursor → Prop where
  | ok {value : α} {value' : β} {rest : Input} {after : Cursor} (hSame : Same value value')
      (hSound : after.Sound) (hData : after.data = data) (hRest : after.input = rest) :
      Agrees data Same (.ok (value, rest)) (.ok value', after)
  | error {error : ε} {after : Cursor} (hSound : after.Sound) (hData : after.data = data) :
      Agrees data Same (.error error) (.error error, after)

/-- The cursor reader does what the reader does, at every sound cursor. -/
def Tracks (Same : α → β → Prop) (reader : Reader ε α) (cursorReader : CursorReader ε β) : Prop :=
  ∀ cursor : Cursor, cursor.Sound →
    Agrees cursor.data Same (reader cursor.input) (cursorReader cursor)

section Tracking

variable {γ δ : Type} {Same : α → β → Prop} {Same' : γ → δ → Prop}

theorem Agrees.bind {first : Reader ε α} {first' : CursorReader ε β} {second : α → Reader ε γ}
    {second' : β → CursorReader ε δ} {cursor : Cursor}
    (hHead : Agrees cursor.data Same (first cursor.input) (first' cursor))
    (hTail : ∀ value value' after, Same value value' → first' cursor = (.ok value', after) →
      after.Sound → Agrees after.data Same' (second value after.input) (second' value' after)) :
    Agrees cursor.data Same' ((first >>= second) cursor.input) ((first' >>= second') cursor) := by
  generalize hFirst : first cursor.input = outcome at hHead
  generalize hFirst' : first' cursor = outcome' at hHead
  cases hHead with
  | ok hSame hSound hData hRest =>
      rw [Reader.bind_ok hFirst, bind_ok hFirst', ← hData, ← hRest]
      exact hTail _ _ _ hSame hFirst' hSound
  | error hSound hData =>
      rw [Reader.bind_error hFirst, bind_error hFirst']
      exact .error hSound hData

theorem Tracks.bind {first : Reader ε α} {first' : CursorReader ε β} {second : α → Reader ε γ}
    {second' : β → CursorReader ε δ} (hHead : Tracks Same first first')
    (hTail : ∀ value value', Same value value' → Tracks Same' (second value) (second' value')) :
    Tracks Same' (first >>= second) (first' >>= second') :=
  fun cursor hSound => (hHead cursor hSound).bind
    fun value value' after hSame _ hAfter => hTail value value' hSame after hAfter

theorem tracks_pure {value : α} {value' : β} (h : Same value value') :
    Tracks Same (pure value : Reader ε α) (pure value') :=
  fun _ hSound => .ok h hSound rfl rfl

theorem tracks_throw (error : ε) : Tracks Same (throw error : Reader ε α) (throw error) :=
  fun _ hSound => .error hSound rfl

theorem Tracks.mono {reader : Reader ε α} {reader' : CursorReader ε β} {Other : α → β → Prop}
    (hTracks : Tracks Same reader reader') (h : ∀ value value', Same value value' → Other value value') :
    Tracks Other reader reader' := by
  intro cursor hSound
  have hAgrees := hTracks cursor hSound
  generalize reader cursor.input = outcome at hAgrees ⊢
  generalize reader' cursor = outcome' at hAgrees ⊢
  cases hAgrees with
  | ok hSame hAfter hData hRest => exact .ok (h _ _ hSame) hAfter hData hRest
  | error hAfter hData => exact .error hAfter hData

theorem Tracks.map {reader : Reader ε α} {reader' : CursorReader ε β} {f : α → γ} {f' : β → δ}
    (hTracks : Tracks Same reader reader') (h : ∀ value value', Same value value' →
      Same' (f value) (f' value')) : Tracks Same' (f <$> reader) (f' <$> reader') := by
  rw [map_eq_pure_bind, map_eq_pure_bind]
  exact hTracks.bind fun value value' hSame => tracks_pure (h value value' hSame)

theorem Tracks.mapError {reader : Reader ε α} {reader' : CursorReader ε β} {f : ε → ε'}
    (hTracks : Tracks Same reader reader') :
    Tracks Same (reader.mapError f) (Cursor.mapError f reader') := by
  intro cursor hSound
  have h := hTracks cursor hSound
  simp only [Reader.mapError, Cursor.mapError]
  generalize reader cursor.input = outcome at h
  generalize reader' cursor = outcome' at h
  cases h with
  | ok hSame hAfter hData hRest => exact .ok hSame hAfter hData hRest
  | error hAfter hData => exact .error hAfter hData

/-- A reader that reads nothing, and answers a value of which something is known. -/
def Computes (reader : CursorReader ε β) (Known : β → Prop) : Prop :=
  Tracks (fun (_ : Unit) value => Known value) (pure ()) reader

theorem Computes.bind {Known : β → Prop} {first' : CursorReader ε β} {reader : Reader ε γ}
    {second' : β → CursorReader ε δ} (hHead : Computes first' Known)
    (hTail : ∀ value, Known value → Tracks Same' reader (second' value)) :
    Tracks Same' reader (first' >>= second') :=
  Tracks.bind hHead fun _ value hValue => hTail value hValue

theorem Computes.tracks {Known : β → Prop} {reader : CursorReader ε β} {value : α}
    (h : Computes reader Known) (hSame : ∀ value', Known value' → Same value value') :
    Tracks Same (pure value) reader := by
  intro cursor hSound
  have hAgrees := h cursor hSound
  generalize reader cursor = outcome at hAgrees
  cases hAgrees with
  | ok hKnown hAfter hData hRest => exact .ok (hSame _ hKnown) hAfter hData hRest

theorem computes {operation : Operation} {value : β} {Known : β → Prop}
    (hExact : ∀ size, operation.Exact size) (hKnown : Known value) :
    Computes (compute operation value : CursorReader ε β) Known :=
  fun _ hSound => .ok hKnown (hSound.note (hExact _)) rfl rfl

theorem computes_add {a b : UInt64} (h : a.toNat + b.toNat < UInt64.size) :
    Computes (add a b : CursorReader ε UInt64) (fun sum => sum.toNat = a.toNat + b.toNat) := by
  refine computes (fun _ => h) ?_
  rw [UInt64.toNat_add]
  exact Nat.mod_eq_of_lt h

/-- Saturation makes no difference to a sum that 64 bits hold. -/
theorem computes_addSaturating {a b : UInt64} (h : a.toNat + b.toNat < UInt64.size) :
    Computes (addSaturating a b : CursorReader ε UInt64)
      (fun sum => sum.toNat = a.toNat + b.toNat) := by
  refine computes (fun _ => h) ?_
  rw [Nat.min_eq_left (Nat.le_sub_one_of_lt h)]
  exact UInt64.toNat_ofNat_of_lt' h

theorem computes_mul {a b : UInt64} (h : a.toNat * b.toNat < UInt64.size) :
    Computes (mul a b : CursorReader ε UInt64) (fun product => product.toNat = a.toNat * b.toNat) := by
  refine computes (fun _ => h) ?_
  rw [UInt64.toNat_mul]
  exact Nat.mod_eq_of_lt h

/-- The number of bytes left is the difference of the length and the position. -/
theorem tracks_remaining :
    Tracks (fun size left => left.toNat = size) (Reader.remaining : Reader ε Nat) remaining := by
  intro cursor hSound
  exact .ok hSound.left_eq_size (hSound.note hSound.position_le_length) rfl rfl

theorem tracks_take (missing : ε) {count : Nat} {count' : UInt64} (h : count'.toNat = count) :
    Tracks (fun taken taken' => taken' = taken ∧ taken.length = count) (Reader.take missing count)
      (take missing count') := by
  intro cursor hSound
  have hSize := hSound.left_eq_size
  rw [take_eq, Reader.take, Input.take?]
  by_cases hShort : cursor.left < count'
  · have hFew : ¬count ≤ cursor.input.size := by
      have := UInt64.lt_iff_toNat_lt.mp hShort
      omega
    rw [if_pos hShort, if_neg hFew]
    exact .error (hSound.note hSound.position_le_length) rfl
  · have hEnough : count' ≤ cursor.left := UInt64.not_lt.mp hShort
    have hMany : count ≤ cursor.input.size := by
      have := UInt64.le_iff_toNat_le.mp hEnough
      omega
    obtain ⟨-, hStop⟩ := hSound.stop_toNat hEnough
    rw [if_neg hShort, if_pos hMany]
    refine .ok ⟨?_, ?_⟩ (hSound.past hEnough) rfl ?_
    · rw [hStop, h, ← List.take_drop]
      rfl
    · rw [List.length_take, ← cursor.input.size_eq]
      exact Nat.min_eq_left hMany
    · apply Input.eq_of_bytes_eq
      show cursor.data.drop (cursor.position + count').toNat =
        (cursor.data.drop cursor.position.toNat).drop count
      rw [hStop, h, List.drop_drop]

end Tracking

end Cursor

end BlockFeed
