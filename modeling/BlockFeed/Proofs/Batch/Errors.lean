import BlockFeed.Proofs.Batch.Failures
import BlockFeed.Proofs.Batch.Skipping

/-! What an error says is so. It names the record that is at fault, a marker that it names stands in the
data and is not one that its field accepts, and a number that it names beyond a limit is declared. -/

namespace BlockFeed

open MessagePack Reader

namespace Field

/-- The shape that is asked for in a field. A value under an unknown name may have any. -/
def shape? : Field → Option Shape
  | batch => some .array
  | record => some .map
  | key => some .string
  | height => some .integer
  | block => some .binary
  | unknown => none

/-- What an error says that a field should have been. -/
def expected? : Field → Option String
  | batch => some "array"
  | record => some "map"
  | key => some "string"
  | height => some "integer"
  | block => some "binary"
  | unknown => none

theorem expected?_of_shape? {field : Field} {shape : Shape} (h : field.shape? = some shape) :
    field.expected? = some shape.text := by
  cases field <;> cases h <;> rfl

/-- The ranges of the markers that a field accepts, each with its first and its last. -/
def ranges : Field → List (UInt8 × UInt8)
  | batch => [(0x90, 0x9f), (0xdc, 0xdd)]
  | record => [(0x80, 0x8f), (0xde, 0xdf)]
  | key => [(0xa0, 0xbf), (0xc4, 0xc6), (0xd9, 0xdb)]
  | height => [(0x00, 0x7f), (0xcc, 0xd3), (0xe0, 0xff)]
  | block => [(0xc4, 0xc6)]
  | unknown => [(0x00, 0xc0), (0xc2, 0xff)]

/-- A value of the field may start with this marker. -/
def Accepts (field : Field) (marker : UInt8) : Prop :=
  ∃ range ∈ field.ranges, range.1 ≤ marker ∧ marker ≤ range.2

instance (field : Field) (marker : UInt8) : Decidable (field.Accepts marker) :=
  inferInstanceAs (Decidable (∃ range ∈ field.ranges, range.1 ≤ marker ∧ marker ≤ range.2))

/-- The marker is in the table by which the field is read. -/
def tabulates (field : Field) (marker : Marker) : Bool :=
  match field with
  | batch => marker.arrayCount?.isSome
  | record => marker.mapCount?.isSome
  | key => (marker.stringLength? <|> marker.binaryLength?).isSome
  | height => marker.integerField?.isSome
  | block => marker.binaryLength?.isSome
  | unknown => marker.layout?.isSome

theorem accepts_iff_tabulates (field : Field) (marker : Marker) :
    field.Accepts marker.byte ↔ field.tabulates marker := by
  have hEach : ∀ code : Fin 256, field.Accepts (UInt8.ofFin code) ↔
      field.tabulates (Marker.ofByte (UInt8.ofFin code)) := by
    cases field <;> decide +kernel
  simpa using hEach marker.byte.toFin

/-- The faults that a field has where these bytes stand. Only a height is ever out of range, and only
one that is written as an unsigned integer of eight bytes. -/
inductive Faults (bytes : Bytes) : Field → Fault → Prop where
  | truncated {field : Field} : Faults bytes field .truncated
  | reserved {field : Field} (hMarker : 0xc1 ∈ bytes) : Faults bytes field .reserved
  | shape {field : Field} {expected : Shape} {marker : UInt8} (hShape : field.shape? = some expected)
      (hMarker : marker ∈ bytes) (hReserved : marker ≠ 0xc1) (hRefused : ¬field.Accepts marker) :
      Faults bytes field (.unexpected expected marker)
  | range (hMarker : 0xcf ∈ bytes) : Faults bytes height (.unexpected .int64 0xcf)

theorem Faults.mono {bytes bytes' : Bytes} {field : Field} {fault : Fault}
    (h : Faults bytes field fault) (hBytes : bytes ⊆ bytes') : Faults bytes' field fault := by
  cases h with
  | truncated => exact .truncated
  | reserved hMarker => exact .reserved (hBytes hMarker)
  | shape hShape hMarker hReserved hRefused => exact .shape hShape (hBytes hMarker) hReserved hRefused
  | range hMarker => exact .range (hBytes hMarker)

end Field

namespace MessagePack

theorem IntegerField.failsOnly (integer : IntegerField) :
    FailsOnly integer.read (· = .truncated) := by
  cases integer with
  | inMarker own => exact failsOnly_pure own
  | unsigned width | signed width =>
      rw [IntegerField.read, map_eq_pure_bind]
      exact (failsOnly_take width).bind fun bytes => failsOnly_pure _

end MessagePack

namespace Batch

section Parts

variable {field : Field} {expected : Shape} {input : Input} {fault : Fault}

theorem faults_refusal {bytes : Bytes} {marker : Marker} (hShape : field.shape? = some expected)
    (hMarker : marker.byte ∈ bytes) (hRefused : field.tabulates marker = false) :
    field.Faults bytes (.refusal expected marker) := by
  rw [Fault.refusal]
  split
  · next hReserved =>
      subst hReserved
      exact .reserved hMarker
  · next hOther =>
      refine .shape hShape hMarker (fun hSame => hOther (Marker.byte_inj.mp hSame)) ?_
      rw [Field.accepts_iff_tabulates, hRefused]
      exact Bool.false_ne_true

theorem faults_header {count? : Marker → Option CountField} (hShape : field.shape? = some expected)
    (hTable : ∀ marker, field.tabulates marker = (count? marker).isSome)
    (h : header expected count? input = .error fault) : field.Faults input.bytes fault := by
  rcases bind_eq_error_iff.mp h with hMarker | ⟨marker, rest, hMarker, hCount⟩
  · obtain rfl := failsOnly_marker hMarker
    exact .truncated
  · obtain ⟨word, rfl, hInput⟩ := (reads_marker input rest marker).mp hMarker
    cases hField : count? marker with
    | some count =>
        rw [hField] at hCount
        obtain rfl := count.failsOnly hCount
        exact .truncated
    | none =>
        rw [hField] at hCount
        cases hCount
        exact faults_refusal hShape (by simp [hInput]) (by rw [hTable, hField]; rfl)

theorem faults_text (h : text input = .error fault) : Field.key.Faults input.bytes fault := by
  rcases bind_eq_error_iff.mp h with hHeader | ⟨length, rest, -, hTake⟩
  · exact faults_header rfl (fun _ => rfl) hHeader
  · obtain rfl := failsOnly_take length hTake
    exact .truncated

theorem faults_int64 (h : int64 input = .error fault) : Field.height.Faults input.bytes fault := by
  rcases bind_eq_error_iff.mp h with hMarker | ⟨marker, rest, hMarker, hValue⟩
  · obtain rfl := failsOnly_marker hMarker
    exact .truncated
  · obtain ⟨word, rfl, hInput⟩ := (reads_marker input rest marker).mp hMarker
    have hStart : marker.byte ∈ input.bytes := by simp [hInput]
    cases hInteger : marker.integerField? with
    | none =>
        rw [hInteger] at hValue
        cases hValue
        exact faults_refusal rfl hStart (by rw [Field.tabulates, hInteger]; rfl)
    | some integer =>
        rw [hInteger] at hValue
        rcases bind_eq_error_iff.mp hValue with hRead | ⟨value, end_, hRead, hRange⟩
        · obtain rfl := integer.failsOnly hRead
          exact .truncated
        · obtain ⟨word, ⟨hCarries, -⟩, -⟩ := (integer.reads _ _ _).mp hRead
          split at hRange
          · cases hRange
          · next hBeyond =>
              cases hRange
              rw [byte_of_maxValue_lt hInteger hCarries (Int.lt_of_not_ge hBeyond)] at hStart ⊢
              exact .range hStart

theorem faults_skip (h : skip input = .error fault) : Field.unknown.Faults input.bytes fault := by
  rcases failsOnly_skipValues 1 h with rfl | rfl
  · exact .truncated
  · obtain ⟨before, others, after, hBytes, -⟩ := (skip_eq_reserved_iff input).mp h
    exact .reserved (by simp [hBytes])

end Parts

end Batch

/-- Why a field is not read, in terms of the data. It has a fault, or a number that the data declares
is beyond its limit, or the data goes on behind a batch. -/
inductive FieldError.Explained (limits : Limits) (data : Bytes) : FieldError → Prop where
  | fault {field : Field} {fault : Fault} (hFault : field.Faults data fault) :
      Explained limits data ⟨field, .fault fault⟩
  | records {count : Nat} {header : Bytes} (hHeader : ArrayHeader count header) (hData : header <+: data)
      (hMany : limits.maxRecords.toNat < count) :
      Explained limits data ⟨.batch, .tooManyRecords count limits.maxRecords.toNat⟩
  | blockSize {length : Nat} {header : Bytes} (hHeader : BinaryHeader length header)
      (hData : header <:+: data) (hLong : limits.maxBlockSize.toNat < length) :
      Explained limits data ⟨.block, .payloadTooLong length limits.maxBlockSize.toNat⟩
  | trailing {word tail : Bytes} {result : List Record} (hWord : Batch.decode limits word = .ok result)
      (hData : data = word ++ tail) (hTail : tail ≠ []) (hStrict : limits.allowTrailing = false) :
      Explained limits data ⟨.batch, .trailingBytes tail.length⟩

namespace FieldError.Explained

variable {limits : Limits} {data : Bytes} {error : FieldError}

/-- Where bytes are said to be missing, a reader of MessagePack has missed them. -/
theorem cause_eq_truncated (h : error.Explained limits data) (hKind : error.cause.kind = .truncated) :
    error.cause = .fault .truncated := by
  cases h with
  | fault hFault =>
      cases hFault with
      | truncated => rfl
      | reserved | shape | range => cases hKind
  | records | blockSize | trailing => cases hKind

/-- A marker that is said to be of another type is not one that the field accepts, or starts a number
that is too large for a height. -/
theorem typeMismatch {expected : String} {marker : UInt8} (h : error.Explained limits data)
    (hKind : error.cause.kind = .typeMismatch expected marker) :
    error.field ≠ .unknown ∧ marker ≠ 0xc1 ∧ marker ∈ data ∧
      ((error.field.expected? = some expected ∧ ¬error.field.Accepts marker) ∨
        (error.field = .height ∧ expected = "integer within int64 range" ∧ marker = 0xcf)) := by
  cases h with
  | fault hFault =>
      cases hFault with
      | truncated | reserved => cases hKind
      | shape hShape hMarker hReserved hRefused =>
          cases hKind
          refine ⟨?_, hReserved, hMarker, Or.inl ⟨Field.expected?_of_shape? hShape, hRefused⟩⟩
          rintro rfl
          cases hShape
      | range hMarker =>
          cases hKind
          exact ⟨nofun, by decide, hMarker, Or.inr ⟨rfl, rfl, rfl⟩⟩
  | records | blockSize | trailing => cases hKind

end FieldError.Explained

/-- The header of the data declares a record of this index, in a number within the limit. -/
def Batch.Declares (limits : Limits) (data : Bytes) (index : Nat) : Prop :=
  ∃ count header, ArrayHeader count header ∧ header <+: data ∧ index < count ∧
    count ≤ limits.maxRecords.toNat

/-- An error of a batch agrees with the data. It names a record exactly if it is not about the batch
itself, and that record is declared and has a byte for each one before it. A marker of another shape than
the field has, or an integer beyond the signed 64-bit range, stands in the data, and the error says what
was expected. Malformed data has the reserved marker, or exceeds a limit, which only a block and the batch
itself have, and the reason says so. -/
structure DecodeError.WellFormed (limits : Limits) (data : Bytes) (error : DecodeError) : Prop where
  batch : error.record = none ↔ error.field = .batch
  record : ∀ index, error.record = some index → index < data.length ∧ Batch.Declares limits data index
  truncated : error.kind = .truncated → error.cause = .fault .truncated
  mismatch : ∀ expected marker, error.kind = .typeMismatch expected marker →
    error.field ≠ .unknown ∧ marker ≠ 0xc1 ∧ marker ∈ data ∧
      ((error.field.expected? = some expected ∧ ¬error.field.Accepts marker) ∨
        (error.field = .height ∧ expected = "integer within int64 range" ∧ marker = 0xcf))
  malformed : ∀ reason, error.kind = .malformed reason →
    (error.cause = .fault .reserved ∧ reason = "reserved marker 0xc1" ∧ 0xc1 ∈ data) ∨
    (error.field = .block ∧ ∃ length header, BinaryHeader length header ∧ header <:+: data ∧
      limits.maxBlockSize.toNat < length ∧
        error.cause = .payloadTooLong length limits.maxBlockSize.toNat ∧
        reason = s!"payload of {length} bytes exceeds limit of {limits.maxBlockSize.toNat}") ∨
    (error.field = .batch ∧
      ((∃ count header, ArrayHeader count header ∧ header <+: data ∧ limits.maxRecords.toNat < count ∧
          error.cause = .tooManyRecords count limits.maxRecords.toNat ∧
          reason = s!"batch declares {count} records, limit is {limits.maxRecords.toNat}") ∨
        ∃ word tail result, data = word ++ tail ∧ Batch.decode limits word = .ok result ∧ tail ≠ [] ∧
          limits.allowTrailing = false ∧ error.cause = .trailingBytes tail.length ∧
          reason = s!"{tail.length} trailing bytes after the last record"))

namespace Batch

variable {limits : Limits} {data : Bytes}

section Explanations

variable {input : Input} {error : FieldError}

theorem explained_of_reading {α : Type} {field : Field} {reader : Reader Fault α}
    (hReader : ∀ fault, reader input = .error fault → field.Faults input.bytes fault)
    (hData : input.bytes <:+ data) (h : reading field reader input = .error error) :
    error.field = field ∧ error.Explained limits data := by
  obtain ⟨fault, hFault, rfl⟩ := mapError_eq_error_iff.mp h
  exact ⟨rfl, .fault ((hReader fault hFault).mono hData.subset)⟩

theorem explained_of_entryCount (hData : input.bytes <:+ data) (h : entryCount input = .error error) :
    error.field = .record ∧ error.Explained limits data := by
  rcases bind_eq_error_iff.mp h with hHeader | ⟨count, rest, -, hRoom⟩
  · exact explained_of_reading (fun _ => faults_header rfl fun _ => rfl) hData hHeader
  · rw [bind_ok (show Reader.remaining rest = .ok (rest.size, rest) from rfl)] at hRoom
    split at hRoom
    · cases hRoom
      exact ⟨rfl, .fault .truncated⟩
    · cases hRoom

theorem explained_of_block (hData : input.bytes <:+ data) (h : block limits input = .error error) :
    error.field = .block ∧ error.Explained limits data := by
  rcases bind_eq_error_iff.mp h with hHeader | ⟨length, rest, hHeader, hPayload⟩
  · exact explained_of_reading (fun _ => faults_header rfl fun _ => rfl) hData hHeader
  · obtain ⟨header, hWord, hInput⟩ := (reads_reading .block reads_binaryHeader _ _ _).mp hHeader
    split at hPayload
    · next hLong =>
        cases hPayload
        have hFront : header <+: input.bytes := ⟨rest.bytes, hInput.symm⟩
        exact ⟨rfl, .blockSize hWord (hFront.isInfix.trans hData.isInfix) hLong⟩
    · have hRest := ((reads_reading .block reads_binaryHeader).suffix hHeader).trans hData
      refine explained_of_reading (fun fault hTake => ?_) hRest hPayload
      obtain rfl := failsOnly_take length hTake
      exact .truncated

/-- No part of a record has an error of the batch itself. -/
theorem explained_of_part (hData : input.bytes <:+ data) (h : PartFails limits input error) :
    error.field ≠ .batch ∧ error.Explained limits data := by
  have hOther : ∀ field : Field, error.field = field ∧ error.Explained limits data → field ≠ .batch →
      error.field ≠ .batch ∧ error.Explained limits data := by
    rintro _ ⟨rfl, hExplained⟩ hField
    exact ⟨hField, hExplained⟩
  cases h with
  | count hCount => exact hOther _ (explained_of_entryCount hData hCount) (by decide)
  | key hText => exact hOther _ (explained_of_reading (fun _ => faults_text) hData hText) (by decide)
  | height hInt => exact hOther _ (explained_of_reading (fun _ => faults_int64) hData hInt) (by decide)
  | block hBlock => exact hOther _ (explained_of_block hData hBlock) (by decide)
  | unknown hSkip => exact hOther _ (explained_of_reading (fun _ => faults_skip) hData hSkip) (by decide)

theorem explained_of_recordCount (h : recordCount limits (Input.ofBytes data) = .error error) :
    error.field = .batch ∧ error.Explained limits data := by
  rcases bind_eq_error_iff.mp h with hHeader | ⟨count, rest, hHeader, hLimit⟩
  · exact explained_of_reading (fun _ => faults_header rfl fun _ => rfl) List.suffix_rfl hHeader
  · obtain ⟨header, hWord, hInput⟩ := (reads_reading .batch reads_arrayHeader _ _ _).mp hHeader
    split at hLimit
    · next hMany =>
        cases hLimit
        exact ⟨rfl, .records hWord ⟨rest.bytes, hInput.symm⟩ hMany⟩
    · cases hLimit

end Explanations

variable {error : DecodeError}

/-- Why a batch is not read, and the record that is named. -/
theorem explained_of_decode (h : decode limits data = .error error) :
    error.Explained limits data ∧ (error.record = none ↔ error.field = .batch) ∧
      ∀ index, error.record = some index → index < data.length ∧ Declares limits data index := by
  rcases decode_eq_error_iff_leading.mp h with hLeading | ⟨result, rest, hLeading, hTail, hStrict, rfl⟩
  · rcases leading_eq_error hLeading with ⟨hNone, hCount⟩ |
      ⟨count, header, rest, hHeader, hLimit, hInput, hRecords⟩
    · obtain ⟨hField, hExplained⟩ := explained_of_recordCount hCount
      exact ⟨hExplained, iff_of_true hNone hField, by simp [hNone]⟩
    · obtain ⟨index, place, hIndex, -, hUpper, hSize, hPlace, hRecord⟩ :=
        exists_record_of_records_error hRecords
      obtain ⟨part, hPart, hFails⟩ := exists_part_of_record_error hRecord
      have hRest : rest.bytes <:+ data := ⟨header, hInput.symm⟩
      obtain ⟨hField, hExplained⟩ := explained_of_part ((hPart.trans hPlace).trans hRest) hFails
      refine ⟨hExplained, iff_of_false (by simp [hIndex]) hField, ?_⟩
      have hLength : data.length = header.length + rest.size := by
        rw [rest.size_eq, ← List.length_append, ← hInput, Input.bytes_ofBytes]
      have hPos := hHeader.length_pos
      have hEmpty : (#[] : Array Record).size = 0 := rfl
      intro own hOwn
      obtain rfl : index = own := Option.some.inj (hIndex.symm.trans hOwn)
      exact ⟨by omega, count, header, hHeader, ⟨rest.bytes, hInput.symm⟩, by omega, hLimit⟩
  · obtain ⟨word, hData, hWord⟩ := (reads_leading limits).exists_word hLeading
    have hOwn := hWord []
    rw [List.append_nil] at hOwn
    have hAccepted : decode limits word = .ok result := decode_of_leading hOwn (Or.inl rfl)
    exact ⟨.trailing hAccepted hData hTail hStrict, iff_of_true rfl rfl, by simp⟩

/-- Every error is well-formed. -/
theorem decode_error_wellFormed (h : decode limits data = .error error) :
    error.WellFormed limits data := by
  obtain ⟨hExplained, hBatch, hRecord⟩ := explained_of_decode h
  refine ⟨hBatch, hRecord, hExplained.cause_eq_truncated, ?_, ?_⟩
  · intro expected marker hKind
    exact hExplained.typeMismatch hKind
  · intro reason hKind
    obtain ⟨own, index⟩ := error
    cases hExplained with
    | fault hFault =>
        cases hFault with
        | reserved hMarker =>
            cases hKind
            exact Or.inl ⟨rfl, rfl, hMarker⟩
        | truncated | shape | range => cases hKind
    | blockSize hHeader hData hLong =>
        cases hKind
        exact Or.inr (Or.inl ⟨rfl, _, _, hHeader, hData, hLong, rfl, rfl⟩)
    | records hHeader hData hMany =>
        cases hKind
        exact Or.inr (Or.inr ⟨rfl, Or.inl ⟨_, _, hHeader, hData, hMany, rfl, rfl⟩⟩)
    | trailing hWord hData hTail hStrict =>
        cases hKind
        exact Or.inr (Or.inr ⟨rfl, Or.inr ⟨_, _, _, hData, hWord, hTail, hStrict, rfl, rfl⟩⟩)

/-- The height of a second record is one beyond the signed 64-bit range. -/
theorem decode_error_wellFormed_large_height :
    decode .standard [0x92, 0x80, 0x81, 0xa6, 0x68, 0x65, 0x69, 0x67, 0x68, 0x74,
        0xcf, 0x80, 0, 0, 0, 0, 0, 0, 0] =
      .error ⟨⟨.height, .fault (.unexpected .int64 0xcf)⟩, some 1⟩ ∧
    (DecodeError.mk ⟨.height, .fault (.unexpected .int64 0xcf)⟩ (some 1)).WellFormed .standard
      [0x92, 0x80, 0x81, 0xa6, 0x68, 0x65, 0x69, 0x67, 0x68, 0x74,
        0xcf, 0x80, 0, 0, 0, 0, 0, 0, 0] :=
  (and_iff_left_of_imp fun h => decode_error_wellFormed h).mpr (by rfl)

end Batch

end BlockFeed
