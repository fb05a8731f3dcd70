import BlockFeed.Proofs.Cursor
import BlockFeed.Proofs.MessagePack.Values

/-! MessagePack read by a cursor, with every count, length and number of pending values in 64 bits. The
test at the head of the loop over pending values holds their number below the number of bytes left,
and no marker adds more than twice 32 bits to it, so it never wraps. -/

namespace BlockFeed.Cursor

open MessagePack

/-- The next byte. -/
def byte (missing : Fault) : CursorReader Fault UInt8 :=
  (fun bytes => bytes.headD 0) <$> take missing 1

/-- A marker read from the data. -/
def marker : CursorReader Fault Marker := Marker.ofByte <$> byte .truncated

/-- A big-endian number of `width` bytes. -/
def number (width : Nat) : CursorReader Fault UInt64 :=
  (fun bytes => UInt64.ofNat (Bytes.ofBigEndian bytes)) <$> take .truncated (UInt64.ofNat width)

/-- The count of a header, its marker having been read. -/
def count : CountField → CursorReader Fault UInt64
  | .inMarker own => pure (UInt64.ofNat own)
  | .after width => number width

/-- Reads a header of the expected shape, whose count is where `field?` says. -/
def header (expected : Shape) (field? : Marker → Option CountField) : CursorReader Fault UInt64 := do
  let marker ← marker
  match field? marker with
  | some field => count field
  | none => throw (.refusal expected marker)

/-- The number of elements of an array. -/
def arrayHeader : CursorReader Fault UInt64 := header .array Marker.arrayCount?

/-- The number of entries of a map. -/
def mapHeader : CursorReader Fault UInt64 := header .map Marker.mapCount?

/-- The number of bytes of a binary payload. -/
def binaryHeader : CursorReader Fault UInt64 := header .binary Marker.binaryLength?

/-- The number of bytes of a text that may be given as a string or as a binary payload. -/
def textHeader : CursorReader Fault UInt64 :=
  header .string fun marker => marker.stringLength? <|> marker.binaryLength?

/-- The bytes of a text that may be given as a string or as a binary payload. -/
def text : CursorReader Fault Bytes := do
  let length ← textHeader
  take .truncated length

/-- Reads an integer, the marker having been read. -/
def integer : IntegerField → CursorReader Fault Int
  | .inMarker value => pure value
  | .unsigned width =>
      (fun bytes => (Bytes.ofBigEndian bytes : Int)) <$> take .truncated (UInt64.ofNat width)
  | .signed width => Bytes.signedOfBigEndian <$> take .truncated (UInt64.ofNat width)

/-- An integer that fits into a signed 64-bit number. -/
def int64 : CursorReader Fault Int64 := do
  let marker ← marker
  match marker.integerField? with
  | none => throw (.refusal .integer marker)
  | some field =>
      let value ← integer field
      if value ≤ Int64.maxValue.toInt then
        return Int64.ofInt value
      else
        throw (.unexpected .int64 marker.byte)

/-- Reads past a payload of `length` bytes, and answers the values that are pending all the same. -/
def payload (others length : UInt64) : CursorReader Fault UInt64 := do
  let _ ← take .truncated length
  return others

/-- The number of bytes of an extension payload and its type, which takes one byte. -/
def typedLength (width : Fin 3) (length : UInt64) : CursorReader Fault UInt64 :=
  if width.val = 2 then addSaturating length 1 else add length 1

/-- Reads what stands behind a marker up to the values inside, and answers how many values are pending
with those. -/
def inside (others : UInt64) : Marker → CursorReader Fault UInt64
  | .reserved => throw .reserved
  | .positiveFixint _ | .negativeFixint _ | .nil | .bool _ => return others
  | .fixmap entries => do
      let values ← mul 2 (UInt64.ofNat entries)
      add others values
  | .fixarray elements => add others (UInt64.ofNat elements)
  | .fixstr length => payload others (UInt64.ofNat length)
  | .bin width | .str width => do
      let length ← number (Marker.widthAt width)
      payload others length
  | .ext width => do
      let length ← number (Marker.widthAt width)
      let size ← typedLength width length
      payload others size
  | .uint width | .int width => payload others (UInt64.ofNat (Marker.widthAt width))
  | .float width => payload others (UInt64.ofNat (Marker.widthAt (width + 2)))
  | .fixext width => payload others (UInt64.ofNat (Marker.widthAt width + 1))
  | .array width => do
      let elements ← number (Marker.widthAt (width + 1))
      add others elements
  | .map width => do
      let entries ← number (Marker.widthAt (width + 1))
      let values ← mul 2 entries
      add others values

/-- Reads a value up to the values inside it, and answers how many values are pending with those and
without it. More pending values than bytes are a truncation. -/
def valueHead (pending : UInt64) : CursorReader Fault UInt64 := do
  let rest ← remaining
  if rest < pending then
    throw .truncated
  else
    compute (.admitted pending rest) ()
    let others ← sub pending 1
    let marker ← marker
    inside others marker

section Progress

theorem nonGrowing_number (width : Nat) : NonGrowing (number width) :=
  (nonGrowing_take _ _).bind fun _ => nonGrowing_pure _

theorem nonGrowing_payload (others length : UInt64) : NonGrowing (payload others length) :=
  (nonGrowing_take _ _).bind fun _ => nonGrowing_pure _

theorem nonGrowing_typedLength (width : Fin 3) (length : UInt64) :
    NonGrowing (typedLength width length) := by
  rw [typedLength]
  split
  · exact nonGrowing_compute _ _
  · exact nonGrowing_compute _ _

theorem nonGrowing_inside (others : UInt64) (marker : Marker) : NonGrowing (inside others marker) := by
  cases marker with
  | reserved => exact nonGrowing_throw _
  | positiveFixint | negativeFixint | nil | bool => exact nonGrowing_pure _
  | fixmap => exact (nonGrowing_compute _ _).bind fun _ => nonGrowing_compute _ _
  | fixarray => exact nonGrowing_compute _ _
  | fixstr | uint | int | float | fixext => exact nonGrowing_payload _ _
  | bin | str => exact (nonGrowing_number _).bind fun _ => nonGrowing_payload _ _
  | ext width =>
      refine (nonGrowing_number _).bind fun length => ?_
      exact (nonGrowing_typedLength width length).bind fun _ => nonGrowing_payload _ _
  | array => exact (nonGrowing_number _).bind fun _ => nonGrowing_compute _ _
  | map =>
      exact (nonGrowing_number _).bind fun _ =>
        (nonGrowing_compute _ _).bind fun _ => nonGrowing_compute _ _

theorem advances_marker : Advances marker := by
  have hByte : Advances (byte .truncated) := by
    refine Advances.bind ?_ fun _ => nonGrowing_pure _
    intro cursor bytes after h
    have hLeft := left_of_take h
    simp only [UInt64.toNat_one] at hLeft
    omega
  exact hByte.bind fun _ => nonGrowing_pure _

theorem advances_valueHead (pending : UInt64) : Advances (valueHead pending) := by
  intro cursor next after h
  obtain ⟨rest, middle, hRest, h⟩ := bind_eq_ok h
  cases hRest
  split at h
  · cases h
  · obtain ⟨_, _, hAdmitted, h⟩ := bind_eq_ok h
    cases hAdmitted
    obtain ⟨others, _, hOthers, h⟩ := bind_eq_ok h
    cases hOthers
    have hHead := (advances_marker.bind fun marker => nonGrowing_inside _ marker) h
    exact hHead

end Progress

/-- Reads past as many complete values as are pending. -/
def skipValues (pending : UInt64) (cursor : Cursor) : Except Fault Unit × Cursor :=
  if pending = 0 then
    (.ok (), cursor)
  else
    match _hHead : valueHead pending cursor with
    | (.error fault, after) => (.error fault, after)
    | (.ok next, after) => skipValues next after
termination_by cursor.left.toNat
decreasing_by exact advances_valueHead pending _hHead

/-- Reads past one complete value. -/
def skip : CursorReader Fault Unit := skipValues 1

/-- A count that a header gives, in 64 bits. -/
def Counts (count : Nat) (count' : UInt64) : Prop :=
  count < Marker.countBound ∧ count'.toNat = count

theorem toNat_ofNat_of_lt_countBound {count : Nat} (h : count < Marker.countBound) :
    (UInt64.ofNat count).toNat = count := by
  apply UInt64.toNat_ofNat_of_lt'
  exact Nat.lt_trans h (by decide)

theorem counts_ofNat {count : Nat} (h : count < Marker.countBound) :
    Counts count (UInt64.ofNat count) :=
  ⟨h, toNat_ofNat_of_lt_countBound h⟩

/-- The counts that the field gives have 32 bits. -/
def Narrow : CountField → Prop
  | .inMarker own => own < Marker.countBound
  | .after width => width ≤ 4

theorem capacity_le_countBound {width : Nat} (h : width ≤ 4) :
    Bytes.capacity width ≤ Marker.countBound := by
  have hEach : ∀ width : Fin 5, Bytes.capacity width ≤ Marker.countBound := by decide
  exact hEach ⟨width, Nat.lt_succ_of_le h⟩

/-- The widths of counts and lengths are those of the marker tables. -/
theorem Tabulates.narrow {field? : Marker → Option CountField} {base limit : Nat}
    {wide : List (UInt8 × Nat)} (hTable : Tabulates field? base limit wide)
    (hLimit : limit ≤ Marker.countBound) (hWide : ∀ entry ∈ wide, entry.2 ≤ 4)
    {marker : Marker} {field : CountField} (h : field? marker = some field) : Narrow field := by
  rcases hTable.only marker field h with ⟨own, rfl, -⟩ | ⟨width, rfl, hEntry⟩
  · exact Nat.lt_of_lt_of_le own.isLt hLimit
  · exact hWide _ hEntry

theorem narrow_of_textLength {marker : Marker} {field : CountField}
    (h : (marker.stringLength? <|> marker.binaryLength?) = some field) : Narrow field := by
  simp only [Option.orElse_eq_orElse, Option.orElse_eq_or, Option.or_eq_some_iff] at h
  rcases h with hString | ⟨-, hBinary⟩
  · exact Tabulates.narrow stringLength?_tabulates (by decide) (by decide) hString
  · exact Tabulates.narrow binaryLength?_tabulates (by decide) (by decide) hBinary

section Tracking

theorem byte_eq_take (missing : Fault) :
    Reader.byte missing = (fun bytes => bytes.headD 0) <$> Reader.take missing 1 := by
  funext input
  obtain ⟨bytes, size, rfl⟩ := input
  cases bytes with
  | nil => rfl
  | cons byte rest =>
      show Except.ok _ = Except.ok _
      rfl

theorem tracks_marker : Tracks (fun marker marker' => marker' = marker) MessagePack.marker marker := by
  rw [MessagePack.marker, marker, byte_eq_take, byte]
  have hByte : Tracks (fun first first' => first' = first)
      ((fun bytes => bytes.headD 0) <$> Reader.take Fault.truncated 1)
      ((fun bytes => bytes.headD 0) <$> take Fault.truncated 1) :=
    (tracks_take Fault.truncated (by decide)).map fun bytes bytes' h => by rw [h.1]
  exact hByte.map fun first first' h => by rw [h]

theorem tracks_number {width : Nat} (hWidth : width ≤ 4) :
    Tracks Counts (unsigned width) (number width) := by
  have hCount : width < Marker.countBound := Nat.lt_of_le_of_lt hWidth (by decide)
  refine (tracks_take Fault.truncated (toNat_ofNat_of_lt_countBound hCount)).map ?_
  rintro _ bytes ⟨rfl, rfl⟩
  have hValue := Bytes.ofBigEndian_lt bytes
  exact counts_ofNat (Nat.lt_of_lt_of_le hValue (capacity_le_countBound hWidth))

theorem tracks_count {field : CountField} (h : Narrow field) :
    Tracks Counts field.read (count field) := by
  cases field with
  | inMarker own => exact tracks_pure (counts_ofNat h)
  | after width => exact tracks_number h

theorem tracks_header (expected : Shape) {field? : Marker → Option CountField}
    (hNarrow : ∀ {marker field}, field? marker = some field → Narrow field) :
    Tracks Counts (MessagePack.header expected field?) (header expected field?) := by
  refine tracks_marker.bind ?_
  rintro _ marker rfl
  cases hField : field? marker with
  | some field => exact tracks_count (hNarrow hField)
  | none => exact tracks_throw _

theorem tracks_arrayHeader : Tracks Counts MessagePack.arrayHeader arrayHeader :=
  tracks_header .array (Tabulates.narrow arrayCount?_tabulates (by decide) (by decide))

theorem tracks_mapHeader : Tracks Counts MessagePack.mapHeader mapHeader :=
  tracks_header .map (Tabulates.narrow mapCount?_tabulates (by decide) (by decide))

theorem tracks_binaryHeader : Tracks Counts MessagePack.binaryHeader binaryHeader :=
  tracks_header .binary (Tabulates.narrow binaryLength?_tabulates (by decide) (by decide))

theorem tracks_text : Tracks (fun bytes bytes' => bytes' = bytes) MessagePack.text text := by
  refine Tracks.bind (tracks_header .string narrow_of_textLength) fun length length' hLength => ?_
  exact (tracks_take Fault.truncated hLength.2).mono fun bytes bytes' h => h.1

theorem tracks_integer {field : IntegerField} {marker : Marker}
    (h : marker.integerField? = some field) :
    Tracks (fun value value' => value' = value) field.read (integer field) := by
  have hWidth : ∀ width : Fin 4, Marker.widthAt width < Marker.countBound := by decide
  have hTake (width : Fin 4) := tracks_take Fault.truncated (toNat_ofNat_of_lt_countBound (hWidth width))
  cases marker with
  | positiveFixint | negativeFixint =>
      cases h
      exact tracks_pure rfl
  | uint width =>
      cases h
      exact (hTake width).map fun bytes bytes' h => by rw [h.1]
  | int width =>
      cases h
      exact (hTake width).map fun bytes bytes' h => by rw [h.1]
  | _ => cases h

theorem tracks_int64 : Tracks (fun value value' => value' = value) MessagePack.int64 int64 := by
  refine tracks_marker.bind ?_
  rintro _ marker rfl
  cases hField : marker.integerField? with
  | none => exact tracks_throw _
  | some field =>
      refine (tracks_integer hField).bind ?_
      rintro _ value rfl
      split
      · exact tracks_pure rfl
      · exact tracks_throw _

/-- The number of pending values with those that a value has inside, in 64 bits. -/
def Pends (others : UInt64) (inner : Nat) (next : UInt64) : Prop :=
  next.toNat = others.toNat + inner

theorem add_lt_size {others : UInt64} {inner : Nat} (hOthers : others.toNat < 2 ^ 63)
    (hInner : inner < 2 * Marker.countBound) : others.toNat + inner < UInt64.size := by
  simp only [Marker.countBound, UInt32.size, UInt64.size] at *
  omega

theorem tracks_payload (others : UInt64) {length : UInt64} {count : Nat} (h : length.toNat = count) :
    Tracks (Pends others) (Reader.take Fault.truncated count >>= fun _ => pure 0)
      (payload others length) :=
  (tracks_take Fault.truncated h).bind fun _ _ _ => tracks_pure rfl

theorem take_zero (missing : Fault) : Reader.take missing 0 = pure [] := by
  funext input
  have hTake : input.take? 0 = some ([], input) := Input.take?_eq_some_iff.mpr ⟨rfl, rfl⟩
  rw [Reader.take, hTake]
  rfl

/-- A number of values that a container announces is added without wrapping. -/
theorem tracks_add {others inner : UInt64} {values : Nat} (hOthers : others.toNat < 2 ^ 63)
    (hInner : inner.toNat = values) (hValues : values < 2 * Marker.countBound) :
    Tracks (Pends others) (pure values : Reader Fault Nat) (add others inner) := by
  have hSum : others.toNat + inner.toNat < UInt64.size := by
    rw [hInner]
    exact add_lt_size hOthers hValues
  refine (computes_add hSum).tracks fun next hNext => ?_
  rw [Pends, hNext, hInner]

/-- The values of the entries of a map are twice as many without wrapping. -/
theorem tracks_double {others entries : UInt64} {count : Nat} (hOthers : others.toNat < 2 ^ 63)
    (hEntries : Counts count entries) : Tracks (Pends others) (pure (2 * count) : Reader Fault Nat)
      (mul 2 entries >>= fun values => add others values) := by
  have hBound := hEntries.1
  have hProduct : (2 : UInt64).toNat * entries.toNat < UInt64.size := by
    rw [hEntries.2]
    simp only [Marker.countBound, UInt32.size] at hBound
    simp only [UInt64.reduceToNat, UInt64.size]
    omega
  refine (computes_mul hProduct).bind fun values hValues => tracks_add hOthers ?_ ?_
  · simpa [hEntries.2] using hValues
  · omega

theorem tracks_typedLength {width : Fin 3} {length : UInt64} {count : Nat} (h : Counts count length) :
    Computes (typedLength width length) (fun size => size.toNat = count + 1) := by
  have hSum : length.toNat + (1 : UInt64).toNat < UInt64.size := by
    have hBound := h.1
    rw [h.2]
    simp only [Marker.countBound, UInt32.size] at hBound
    simp only [UInt64.toNat_one, UInt64.size]
    omega
  rw [← h.2, typedLength]
  split
  · exact computes_addSaturating hSum
  · exact computes_add hSum

/-- What stands behind a marker is read as its layout says, and no count in it is too large for the
number of pending values. -/
theorem tracks_inside {others : UInt64} (hOthers : others.toNat < 2 ^ 63) (marker : Marker) :
    Tracks (Pends others)
      (match marker.layout? with
        | some layout => layout.read
        | none => throw .reserved : Reader Fault Nat) (inside others marker) := by
  cases marker with
  | reserved => exact tracks_throw _
  | positiveFixint | negativeFixint | nil | bool =>
      show Tracks _ (Reader.take Fault.truncated 0 >>= fun _ => pure 0) (pure others)
      rw [take_zero]
      exact tracks_pure rfl
  | fixmap entries =>
      exact tracks_double hOthers (counts_ofNat (Nat.lt_trans entries.isLt (by decide)))
  | fixarray elements =>
      have hCount := counts_ofNat (Nat.lt_trans elements.isLt (by decide))
      refine tracks_add hOthers (hCount.2.trans (Nat.one_mul _).symm) ?_
      have hBound := elements.isLt
      simp only [Marker.countBound, UInt32.size]
      omega
  | fixstr length =>
      exact tracks_payload others (counts_ofNat (Nat.lt_trans length.isLt (by decide))).2
  | bin width | str width =>
      refine (tracks_number (by revert width; decide)).bind fun length length' hLength => ?_
      exact tracks_payload others hLength.2
  | ext width =>
      refine (tracks_number (by revert width; decide)).bind fun length length' hLength => ?_
      exact (tracks_typedLength hLength).bind fun size hSize => tracks_payload others hSize
  | uint width | int width | float width | fixext width =>
      refine tracks_payload others (toNat_ofNat_of_lt_countBound ?_)
      revert width
      decide
  | array width =>
      refine (tracks_number (by revert width; decide)).bind fun elements elements' hElements => ?_
      refine tracks_add hOthers (hElements.2.trans (Nat.one_mul _).symm) ?_
      have hBound := hElements.1
      omega
  | map width =>
      refine (tracks_number (by revert width; decide)).bind fun entries entries' hEntries => ?_
      exact tracks_double hOthers hEntries

end Tracking

/-- The head of a value, if at least as many bytes are left as values are pending with it. -/
def testedHead (others : Nat) : Reader Fault Nat := fun input =>
  if input.size ≤ others then .error .truncated else MessagePack.valueHead input

/-- Behind the test there are no more pending values than bytes, so that those inside the next value can
be added to them. -/
theorem agrees_valueHead {pending : UInt64} {others : Nat} (hPending : pending.toNat = others + 1)
    {cursor : Cursor} (hSound : cursor.Sound) :
    Agrees cursor.data (fun inner next => next.toNat = others + inner)
      (testedHead others cursor.input) (valueHead pending cursor) := by
  rw [testedHead]
  have hSize := hSound.left_eq_size
  have hLeft := hSound.left_toNat
  have hLength := hSound.length_lt
  have hNoted : (cursor.note (.difference (UInt64.ofNat cursor.data.length) cursor.position)).Sound :=
    hSound.note hSound.position_le_length
  show Agrees _ _ _ ((if cursor.left < pending then throw .truncated else _ : CursorReader Fault UInt64)
    (cursor.note (.difference (UInt64.ofNat cursor.data.length) cursor.position)))
  by_cases hShort : cursor.left < pending
  · have hFew : cursor.input.size ≤ others := by
      have := UInt64.lt_iff_toNat_lt.mp hShort
      omega
    rw [if_pos hShort, if_pos hFew]
    exact .error hNoted rfl
  · have hEnough : pending ≤ cursor.left := UInt64.not_lt.mp hShort
    have hLe := UInt64.le_iff_toNat_le.mp hEnough
    have hOne : 1 ≤ pending := by
      rw [UInt64.le_iff_toNat_le, hPending]
      exact Nat.le_add_left _ _
    have hOthers : (pending - 1).toNat = others := by
      rw [UInt64.toNat_sub_of_le _ _ hOne, hPending]
      rfl
    have hAdmitted := hNoted.note (show Operation.Exact _ (.admitted pending cursor.left) from
      ⟨UInt64.pos_iff_ne_zero.mpr (by rintro rfl; cases hPending), hEnough⟩)
    have hLowered := hAdmitted.note (show Operation.Exact _ (.difference pending 1) from hOne)
    have hMarker : Tracks (Pends (pending - 1)) MessagePack.valueHead
        (marker >>= inside (pending - 1)) := by
      refine tracks_marker.bind ?_
      rintro _ marker rfl
      exact tracks_inside (by omega) marker
    subst hOthers
    rw [if_neg hShort, if_neg (by omega)]
    exact hMarker _ hLowered

theorem skipValues_succ (others : Nat) (input : Input) :
    MessagePack.skipValues (others + 1) input =
      (testedHead others >>= fun inner => MessagePack.skipValues (others + inner)) input := by
  rw [MessagePack.skipValues_succ]
  split
  · next hFew =>
      have hHead : testedHead others input = .error .truncated := if_pos hFew
      rw [Reader.bind_error hHead]
  · next hMany =>
      have hHead : testedHead others input = MessagePack.valueHead input := if_neg hMany
      simp only [bind, StateT.bind, hHead]

theorem skipValues_of_ne_zero {pending : UInt64} (h : pending ≠ 0) (cursor : Cursor) :
    skipValues pending cursor = (valueHead pending >>= fun next => skipValues next) cursor := by
  rw [skipValues, if_neg h]
  split
  · next hHead => rw [bind_error hHead]
  · next hHead => rw [bind_ok hHead]

/-- The pending values are read past as they are when they are counted without a bound. -/
theorem agrees_skipValues (pending : UInt64) {cursor : Cursor} (hSound : cursor.Sound) :
    Agrees cursor.data (fun _ _ => True) (MessagePack.skipValues pending.toNat cursor.input)
      (skipValues pending cursor) := by
  have hSucc {pending : UInt64} (h : pending ≠ 0) : ∃ others, pending.toNat = others + 1 :=
    Nat.exists_eq_succ_of_ne_zero fun hZero => h (UInt64.toNat_inj.mp hZero)
  induction pending, cursor using skipValues.induct with
  | case1 cursor =>
      rw [skipValues, if_pos rfl]
      show Agrees _ _ (MessagePack.skipValues 0 cursor.input) _
      rw [MessagePack.skipValues]
      exact .ok trivial hSound rfl rfl
  | case2 pending cursor hPending fault after hHead =>
      obtain ⟨others, hOthers⟩ := hSucc hPending
      rw [hOthers, skipValues_succ, skipValues_of_ne_zero hPending]
      refine (agrees_valueHead hOthers hSound).bind fun inner next middle _ hOk _ => ?_
      rw [hHead] at hOk
      cases hOk
  | case3 pending cursor hPending next after hHead ih =>
      obtain ⟨others, hOthers⟩ := hSucc hPending
      rw [hOthers, skipValues_succ, skipValues_of_ne_zero hPending]
      refine (agrees_valueHead hOthers hSound).bind fun inner next' middle hNext hOk hMiddle => ?_
      rw [hHead] at hOk
      cases hOk
      rw [← hNext]
      exact ih hMiddle

theorem tracks_skip : Tracks (fun _ _ => True) MessagePack.skip skip :=
  fun _ hSound => agrees_skipValues 1 hSound

end BlockFeed.Cursor
