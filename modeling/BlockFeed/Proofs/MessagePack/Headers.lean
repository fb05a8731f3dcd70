import BlockFeed.Proofs.MessagePack.Grammar
import BlockFeed.MessagePack.Count

/-! Headers and names are read in exactly the forms of the grammar. -/

namespace BlockFeed.MessagePack

open Reader

theorem reads_marker : Reads marker (fun value word => word = [value.byte]) := by
  refine ((reads_byte _).map).of_iff fun value word => ?_
  constructor
  · rintro ⟨byte, rfl, rfl⟩
    simp
  · intro hWord
    exact ⟨value.byte, hWord, Marker.ofByte_byte value⟩

theorem reads_unsigned (width : Nat) : Reads (unsigned width)
    (fun value word => value < Bytes.capacity width ∧ word = Bytes.bigEndian width value) := by
  refine ((reads_take _ width).map).of_iff fun value word => ?_
  constructor
  · rintro ⟨bytes, ⟨rfl, rfl⟩, rfl⟩
    exact ⟨Bytes.ofBigEndian_lt word, (Bytes.bigEndian_ofBigEndian word).symm⟩
  · rintro ⟨hValue, rfl⟩
    refine ⟨Bytes.bigEndian width value, ⟨rfl, Bytes.bigEndian_length width value⟩, ?_⟩
    rw [Bytes.ofBigEndian_bigEndian, Nat.mod_eq_of_lt hValue]

theorem CountField.reads (field : CountField) : Reads field.read
    (fun count word => field.Carries count ∧ word = field.spell count) := by
  cases field with
  | inMarker own =>
      refine (reads_pure own).of_iff fun count word => ?_
      simp only [CountField.Carries, CountField.spell, eq_comm]
  | after width => exact reads_unsigned width

/-- A header in terms of the marker table, before the table is compared with the grammar. -/
def Carried (field? : Marker → Option CountField) (count : Nat) (word : Bytes) : Prop :=
  ∃ marker field, field? marker = some field ∧ field.Carries count ∧
    word = marker.byte :: field.spell count

theorem reads_header (expected : Shape) (field? : Marker → Option CountField) :
    Reads (header expected field?) (Carried field?) := by
  refine (reads_marker.bind (fun marker count word => ∃ field, field? marker = some field ∧
    field.Carries count ∧ word = field.spell count) fun marker => ?_).of_iff fun count word => ?_
  · cases hField : field? marker with
    | some field => exact field.reads.of_iff fun count word => by simp
    | none => exact (reads_throw _).of_iff fun count word => by simp
  · constructor
    · rintro ⟨marker, front, back, rfl, ⟨field, hField, hCarries, rfl⟩, rfl⟩
      exact ⟨marker, field, hField, hCarries, rfl⟩
    · rintro ⟨marker, field, hField, hCarries, rfl⟩
      exact ⟨marker, [marker.byte], field.spell count, rfl, ⟨field, hField, hCarries, rfl⟩, rfl⟩

/-- The marker table `field?` lists exactly the short and the wide markers of a header. -/
structure Tabulates (field? : Marker → Option CountField) (base limit : Nat)
    (wide : List (UInt8 × Nat)) : Prop where
  ofShort : ∀ count : Fin limit, ∃ marker,
    field? marker = some (.inMarker count) ∧ marker.byte = UInt8.ofNat (base + count)
  ofWide : ∀ entry ∈ wide, ∃ marker,
    field? marker = some (.after entry.2) ∧ marker.byte = entry.1
  only : ∀ marker field, field? marker = some field →
    (∃ count : Fin limit, field = .inMarker count ∧ marker.byte = UInt8.ofNat (base + count)) ∨
      ∃ width, field = .after width ∧ (marker.byte, width) ∈ wide

theorem Tabulates.carried_iff {field? : Marker → Option CountField} {base limit : Nat}
    {wide : List (UInt8 × Nat)} (hTable : Tabulates field? base limit wide) (count : Nat)
    (word : Bytes) : Carried field? count word ↔ CountWord base limit wide count word := by
  constructor
  · rintro ⟨marker, field, hField, hCarries, rfl⟩
    rcases hTable.only marker field hField with ⟨own, rfl, hByte⟩ | ⟨width, rfl, hWide⟩
    · obtain rfl : count = own := hCarries
      rw [hByte]
      exact CountWord.short own.isLt
    · exact CountWord.wide hWide hCarries
  · intro h
    cases h with
    | short hCount =>
        obtain ⟨marker, hField, hByte⟩ := hTable.ofShort ⟨count, hCount⟩
        exact ⟨marker, _, hField, rfl, by rw [hByte]; rfl⟩
    | wide hMarker hCount =>
        obtain ⟨marker, hField, rfl⟩ := hTable.ofWide _ hMarker
        exact ⟨marker, _, hField, hCount, rfl⟩

theorem arrayCount?_tabulates :
    Tabulates Marker.arrayCount? 0x90 16 [(0xdc, 2), (0xdd, 4)] where
  ofShort count := ⟨.fixarray count, rfl, rfl⟩
  ofWide := by
    simp only [List.forall_mem_cons, List.not_mem_nil, false_implies, implies_true, and_true]
    exact ⟨⟨.array 0, rfl, rfl⟩, ⟨.array 1, rfl, rfl⟩⟩
  only marker field hField := by
    cases marker with
    | fixarray elements =>
        cases hField
        exact Or.inl ⟨elements, rfl, rfl⟩
    | array width =>
        cases hField
        exact Or.inr ⟨_, rfl, by revert width; decide⟩
    | _ => cases hField

theorem mapCount?_tabulates :
    Tabulates Marker.mapCount? 0x80 16 [(0xde, 2), (0xdf, 4)] where
  ofShort count := ⟨.fixmap count, rfl, rfl⟩
  ofWide := by
    simp only [List.forall_mem_cons, List.not_mem_nil, false_implies, implies_true, and_true]
    exact ⟨⟨.map 0, rfl, rfl⟩, ⟨.map 1, rfl, rfl⟩⟩
  only marker field hField := by
    cases marker with
    | fixmap entries =>
        cases hField
        exact Or.inl ⟨entries, rfl, rfl⟩
    | map width =>
        cases hField
        exact Or.inr ⟨_, rfl, by revert width; decide⟩
    | _ => cases hField

theorem stringLength?_tabulates :
    Tabulates Marker.stringLength? 0xa0 32 [(0xd9, 1), (0xda, 2), (0xdb, 4)] where
  ofShort length := ⟨.fixstr length, rfl, rfl⟩
  ofWide := by
    simp only [List.forall_mem_cons, List.not_mem_nil, false_implies, implies_true, and_true]
    exact ⟨⟨.str 0, rfl, rfl⟩, ⟨.str 1, rfl, rfl⟩, ⟨.str 2, rfl, rfl⟩⟩
  only marker field hField := by
    cases marker with
    | fixstr length =>
        cases hField
        exact Or.inl ⟨length, rfl, rfl⟩
    | str width =>
        cases hField
        exact Or.inr ⟨_, rfl, by revert width; decide⟩
    | _ => cases hField

theorem binaryLength?_tabulates :
    Tabulates Marker.binaryLength? 0 0 [(0xc4, 1), (0xc5, 2), (0xc6, 4)] where
  ofShort length := length.elim0
  ofWide := by
    simp only [List.forall_mem_cons, List.not_mem_nil, false_implies, implies_true, and_true]
    exact ⟨⟨.bin 0, rfl, rfl⟩, ⟨.bin 1, rfl, rfl⟩, ⟨.bin 2, rfl, rfl⟩⟩
  only marker field hField := by
    cases marker with
    | bin width =>
        cases hField
        exact Or.inr ⟨_, rfl, by revert width; decide⟩
    | _ => cases hField

theorem reads_arrayHeader : Reads arrayHeader ArrayHeader :=
  (reads_header _ _).of_iff arrayCount?_tabulates.carried_iff

theorem reads_mapHeader : Reads mapHeader MapHeader :=
  (reads_header _ _).of_iff mapCount?_tabulates.carried_iff

theorem reads_binaryHeader : Reads binaryHeader BinaryHeader :=
  (reads_header _ _).of_iff binaryLength?_tabulates.carried_iff

theorem reads_textHeader : Reads textHeader
    (fun length word => StringHeader length word ∨ BinaryHeader length word) := by
  refine (reads_header _ _).of_iff fun length word => ?_
  rw [StringHeader, BinaryHeader, ← stringLength?_tabulates.carried_iff,
    ← binaryLength?_tabulates.carried_iff]
  simp only [Carried, Option.orElse_eq_orElse, Option.orElse_eq_or, Option.or_eq_some_iff]
  constructor
  · rintro ⟨marker, field, hString | ⟨-, hBinary⟩, hCarries, rfl⟩
    · exact Or.inl ⟨marker, field, hString, hCarries, rfl⟩
    · exact Or.inr ⟨marker, field, hBinary, hCarries, rfl⟩
  · rintro (⟨marker, field, hString, hCarries, rfl⟩ | ⟨marker, field, hBinary, hCarries, rfl⟩)
    · exact ⟨marker, field, Or.inl hString, hCarries, rfl⟩
    · cases marker with
      | bin width => exact ⟨.bin width, field, Or.inr ⟨rfl, hBinary⟩, hCarries, rfl⟩
      | _ => cases hBinary

theorem reads_text : Reads text KeyWord := by
  refine (reads_textHeader.bind _ fun length => reads_take _ length).of_iff fun key word => ?_
  constructor
  · rintro ⟨length, header, back, hHeader, ⟨rfl, rfl⟩, rfl⟩
    rcases hHeader with hString | hBinary
    · exact KeyWord.string hString
    · exact KeyWord.binary hBinary
  · intro h
    cases h with
    | @string header hHeader => exact ⟨_, header, key, Or.inl hHeader, ⟨rfl, rfl⟩, rfl⟩
    | @binary header hHeader => exact ⟨_, header, key, Or.inr hHeader, ⟨rfl, rfl⟩, rfl⟩

end BlockFeed.MessagePack
