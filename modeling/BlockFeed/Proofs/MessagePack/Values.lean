import BlockFeed.Proofs.MessagePack.Integers
import BlockFeed.MessagePack.Value

/-! A value is read past exactly where a complete value of the grammar stands. The reader only
counts the values still to come, while the grammar nests them. What connects the two is the head
of a value: its bytes up to the values inside, and how many those are. -/

namespace BlockFeed.MessagePack

open Reader

/-- How an extension marker gives the number of its bytes, the type not counted. -/
def Marker.extensionLength? : Marker → Option CountField
  | fixext width => some (.inMarker (widthAt width.val))
  | ext width => some (.after (widthAt width.val))
  | _ => none

theorem mem_fixedExtension_iff (entry : UInt8 × Nat) :
    entry ∈ [(0xd4, 1), (0xd5, 2), (0xd6, 4), (0xd7, 8), (0xd8, 16)] ↔
      ∃ place : Fin 5, entry = ((Marker.fixext place).byte, Marker.widthAt place) :=
  mem_places_iff _ (by rfl) entry

theorem mem_countedExtension_iff (entry : UInt8 × Nat) :
    entry ∈ [(0xc7, 1), (0xc8, 2), (0xc9, 4)] ↔
      ∃ place : Fin 3, entry = ((Marker.ext place).byte, Marker.widthAt place) :=
  mem_places_iff _ (by rfl) entry

theorem mem_float_iff (entry : UInt8 × Nat) :
    entry ∈ [(0xca, 4), (0xcb, 8)] ↔
      ∃ place : Fin 2, entry = ((Marker.float place).byte, Marker.widthAt (place + 2)) :=
  mem_places_iff _ (by rfl) entry

theorem carried_extension_iff (length : Nat) (word : Bytes) :
    Carried Marker.extensionLength? length word ↔ ExtensionHeader length word := by
  constructor
  · rintro ⟨marker, field, hField, hCarries, rfl⟩
    cases marker with
    | fixext width =>
        cases hField
        obtain rfl : length = Marker.widthAt width := hCarries
        exact ExtensionHeader.fixed ((mem_fixedExtension_iff _).mpr ⟨width, rfl⟩)
    | ext width =>
        cases hField
        have hMarker := (mem_countedExtension_iff _).mpr ⟨width, rfl⟩
        exact ExtensionHeader.counted (CountWord.wide hMarker hCarries)
    | _ => cases hField
  · intro h
    cases h with
    | fixed hMarker =>
        obtain ⟨place, hPlace⟩ := (mem_fixedExtension_iff _).mp hMarker
        cases hPlace
        exact ⟨.fixext place, _, rfl, rfl, rfl⟩
    | counted hHeader =>
        cases hHeader with
        | short hCount => exact absurd hCount (Nat.not_lt_zero _)
        | wide hMarker hCount =>
            obtain ⟨place, hPlace⟩ := (mem_countedExtension_iff _).mp hMarker
            cases hPlace
            exact ⟨.ext place, _, rfl, hCount, rfl⟩

/-- What a layout reads, in terms of its fields. -/
def Layout.Word (layout : Layout) (inner : Nat) (word : Bytes) : Prop :=
  match layout with
  | payload length extra => inner = 0 ∧ ∃ count body, length.Carries count ∧
      body.length = count + extra ∧ word = length.spell count ++ body
  | values count each => ∃ entries, count.Carries entries ∧ inner = each * entries ∧
      word = count.spell entries

theorem Layout.reads (layout : Layout) : Reads layout.read layout.Word := by
  cases layout with
  | payload length extra =>
      refine (length.reads.bind _ fun count => (reads_take _ (count + extra)).bind_pure).of_iff
        fun inner word => ?_
      constructor
      · rintro ⟨count, front, back, ⟨hCarries, rfl⟩, ⟨body, ⟨rfl, hBody⟩, rfl⟩, rfl⟩
        exact ⟨rfl, count, back, hCarries, hBody, rfl⟩
      · rintro ⟨rfl, count, body, hCarries, hBody, rfl⟩
        exact ⟨count, _, body, ⟨hCarries, rfl⟩, ⟨body, ⟨rfl, hBody⟩, rfl⟩, rfl⟩
  | values count each =>
      refine count.reads.bind_pure.of_iff fun inner word => ?_
      constructor
      · rintro ⟨entries, ⟨hCarries, rfl⟩, rfl⟩
        exact ⟨entries, hCarries, rfl, rfl⟩
      · rintro ⟨entries, hCarries, rfl, rfl⟩
        exact ⟨entries, ⟨hCarries, rfl⟩, rfl⟩

/-- The bytes of a value up to the values inside it, of which there are `inner`. -/
def HeadWord (inner : Nat) (word : Bytes) : Prop :=
  ∃ marker layout body, Marker.layout? marker = some layout ∧ layout.Word inner body ∧
    word = marker.byte :: body

theorem reads_valueHead : Reads valueHead HeadWord := by
  refine (reads_marker.bind (fun marker inner word => ∃ layout, marker.layout? = some layout ∧
    layout.Word inner word) fun marker => ?_).of_iff fun inner word => ?_
  · cases hLayout : marker.layout? with
    | some layout => exact layout.reads.of_iff fun inner word => by simp
    | none => exact (reads_throw _).of_iff fun inner word => by simp
  · constructor
    · rintro ⟨marker, front, body, rfl, ⟨layout, hLayout, hBody⟩, rfl⟩
      exact ⟨marker, layout, body, hLayout, hBody, rfl⟩
    · rintro ⟨marker, layout, body, hLayout, hBody, rfl⟩
      exact ⟨marker, [marker.byte], body, rfl, ⟨layout, hLayout, hBody⟩, rfl⟩

theorem HeadWord.length_pos {inner : Nat} {word : Bytes} (h : HeadWord inner word) :
    0 < word.length := by
  obtain ⟨marker, layout, body, -, -, rfl⟩ := h
  simp

theorem HeadWord.payload {field? : Marker → Option CountField} (extra : Nat) {count : Nat}
    {header body : Bytes}
    (hLayout : ∀ marker field, field? marker = some field → marker.layout? = some (.payload field extra))
    (hHeader : Carried field? count header) (hBody : body.length = count + extra) :
    HeadWord 0 (header ++ body) := by
  obtain ⟨marker, field, hField, hCarries, rfl⟩ := hHeader
  exact ⟨marker, _, _, hLayout marker field hField, ⟨rfl, count, body, hCarries, hBody, rfl⟩, rfl⟩

theorem HeadWord.values {field? : Marker → Option CountField} {each count : Nat} {header : Bytes}
    (hLayout : ∀ marker field, field? marker = some field → marker.layout? = some (.values field each))
    (hHeader : Carried field? count header) : HeadWord (each * count) header := by
  obtain ⟨marker, field, hField, hCarries, rfl⟩ := hHeader
  exact ⟨marker, _, _, hLayout marker field hField, ⟨count, hCarries, rfl, rfl⟩, rfl⟩

theorem HeadWord.fixed (marker : Marker) (body : Bytes)
    (hLayout : marker.layout? = some (.payload (.inMarker body.length) 0)) :
    HeadWord 0 (marker.byte :: body) :=
  ⟨marker, _, body, hLayout, ⟨rfl, body.length, body, rfl, rfl, rfl⟩, rfl⟩

theorem layout?_of_integerField? {marker : Marker} {field : IntegerField}
    (hField : marker.integerField? = some field) (value : Int) :
    marker.layout? = some (.payload (.inMarker (field.spell value).length) 0) := by
  cases marker with
  | positiveFixint | negativeFixint =>
      cases hField
      rfl
  | uint width | int width =>
      cases hField
      rw [IntegerField.spell, Bytes.bigEndian_length]
      rfl
  | _ => cases hField

/-- Induction over a value by its head and the values inside it, whatever kind it is of. -/
theorem ValueWord.induction_head {motive : Bytes → Prop}
    (hStep : ∀ inner head items, HeadWord inner head → List.length items = inner →
      (∀ item ∈ items, ValueWord item) → (∀ item ∈ items, motive item) →
      motive (head ++ items.flatten))
    {word : Bytes} (h : ValueWord word) : motive word := by
  have hLeaf : ∀ head, HeadWord 0 head → motive head := by
    intro head hHead
    simpa using hStep 0 head [] hHead rfl (by simp) (by simp)
  induction h with
  | @integer value word hInteger =>
      obtain ⟨marker, field, hField, -, rfl⟩ := (integerField?_iff value word).mpr hInteger
      exact hLeaf _ (HeadWord.fixed _ _ (layout?_of_integerField? hField value))
  | nil => exact hLeaf _ (HeadWord.fixed .nil [] rfl)
  | bool hMarker =>
      simp only [List.mem_cons, List.not_mem_nil, or_false] at hMarker
      rcases hMarker with rfl | rfl
      · exact hLeaf _ (HeadWord.fixed (.bool false) [] rfl)
      · exact hLeaf _ (HeadWord.fixed (.bool true) [] rfl)
  | @float marker bits hMarker =>
      obtain ⟨place, hPlace⟩ := (mem_float_iff _).mp hMarker
      obtain ⟨rfl, hLength⟩ := Prod.mk.inj hPlace
      exact hLeaf _ (HeadWord.fixed (.float place) bits (by rw [hLength, Marker.layout?]))
  | string hHeader =>
      refine hLeaf _ (HeadWord.payload 0 ?_ ((stringLength?_tabulates.carried_iff _ _).mpr hHeader) rfl)
      intro marker field hField
      cases marker <;> cases hField <;> rfl
  | binary hHeader =>
      refine hLeaf _ (HeadWord.payload 0 ?_ ((binaryLength?_tabulates.carried_iff _ _).mpr hHeader) rfl)
      intro marker field hField
      cases marker <;> cases hField
      rfl
  | extension hHeader =>
      refine hLeaf _ (HeadWord.payload 1 ?_ ((carried_extension_iff _ _).mpr hHeader) rfl)
      intro marker field hField
      cases marker <;> cases hField <;> rfl
  | array hHeader hItems ih =>
      refine hStep _ _ _ (HeadWord.values ?_ ((arrayCount?_tabulates.carried_iff _ _).mpr hHeader))
        (Nat.one_mul _).symm hItems ih
      intro marker field hField
      cases marker <;> cases hField <;> rfl
  | map hHeader hCount hItems ih =>
      refine hStep _ _ _ (HeadWord.values ?_ ((mapCount?_tabulates.carried_iff _ _).mpr hHeader))
        hCount hItems ih
      intro marker field hField
      cases marker <;> cases hField <;> rfl

theorem ValueWord.of_payload {marker : Marker} {length : CountField} {extra count : Nat}
    {body : Bytes} (hLayout : marker.layout? = some (.payload length extra))
    (hCarries : length.Carries count) (hBody : body.length = count + extra) :
    ValueWord (marker.byte :: (length.spell count ++ body)) := by
  cases marker with
  | positiveFixint own =>
      cases hLayout
      obtain rfl : count = 0 := hCarries
      rw [List.eq_nil_of_length_eq_zero hBody]
      exact .integer ((integerField?_iff own _).mp ⟨.positiveFixint own, .inMarker own, rfl, rfl, rfl⟩)
  | negativeFixint own =>
      cases hLayout
      obtain rfl : count = 0 := hCarries
      rw [List.eq_nil_of_length_eq_zero hBody]
      exact .integer ((integerField?_iff _ _).mp ⟨.negativeFixint own, .inMarker _, rfl, rfl, rfl⟩)
  | nil =>
      cases hLayout
      obtain rfl : count = 0 := hCarries
      rw [List.eq_nil_of_length_eq_zero hBody]
      exact .nil
  | bool value =>
      cases hLayout
      obtain rfl : count = 0 := hCarries
      rw [List.eq_nil_of_length_eq_zero hBody]
      exact .bool (by revert value; decide)
  | uint width =>
      cases hLayout
      obtain rfl : count = Marker.widthAt width := hCarries
      obtain ⟨hValue, hSpell⟩ := IntegerField.unsigned_of_bytes body
      rw [hBody] at hValue hSpell
      exact .integer ((integerField?_iff _ _).mp ⟨.uint width, _, rfl, hValue, congrArg _ hSpell⟩)
  | int width =>
      cases hLayout
      obtain rfl : count = Marker.widthAt width := hCarries
      obtain ⟨hValue, hSpell⟩ := IntegerField.signed_of_bytes body
      rw [hBody] at hValue hSpell
      exact .integer ((integerField?_iff _ _).mp ⟨.int width, _, rfl, hValue, congrArg _ hSpell⟩)
  | float width =>
      cases hLayout
      obtain rfl : count = Marker.widthAt (width + 2) := hCarries
      have hLength : body.length = Marker.widthAt (width + 2) := hBody
      have hMarker : ((Marker.float width).byte, body.length) ∈ [((0xca : UInt8), 4), (0xcb, 8)] :=
        (mem_float_iff _).mpr ⟨width, by rw [hLength]⟩
      exact .float hMarker
  | fixstr | str =>
      cases hLayout
      obtain rfl : body.length = count := hBody
      exact .string ((stringLength?_tabulates.carried_iff _ _).mp ⟨_, _, rfl, hCarries, rfl⟩)
  | bin =>
      cases hLayout
      obtain rfl : body.length = count := hBody
      exact .binary ((binaryLength?_tabulates.carried_iff _ _).mp ⟨_, _, rfl, hCarries, rfl⟩)
  | fixext | ext =>
      cases hLayout
      obtain ⟨type, payload, rfl⟩ := List.exists_cons_of_length_eq_add_one hBody
      obtain rfl : payload.length = count := Nat.succ.inj hBody
      exact .extension ((carried_extension_iff _ _).mp ⟨_, _, rfl, hCarries, rfl⟩)
  | _ => cases hLayout

theorem ValueWord.of_values {marker : Marker} {count : CountField} {each entries : Nat}
    {items : List Bytes} (hLayout : marker.layout? = some (.values count each))
    (hCarries : count.Carries entries) (hLength : items.length = each * entries)
    (hItems : ∀ item ∈ items, ValueWord item) :
    ValueWord (marker.byte :: (count.spell entries ++ items.flatten)) := by
  cases marker with
  | fixarray | array =>
      cases hLayout
      obtain rfl : items.length = entries := hLength.trans (Nat.one_mul _)
      exact .array ((arrayCount?_tabulates.carried_iff _ _).mp ⟨_, _, rfl, hCarries, rfl⟩) hItems
  | fixmap | map =>
      cases hLayout
      exact .map ((mapCount?_tabulates.carried_iff _ _).mp ⟨_, _, rfl, hCarries, rfl⟩) hLength hItems
  | _ => cases hLayout

/-- A head and as many values as it announces are a value. -/
theorem HeadWord.append_items {head : Bytes} {items : List Bytes}
    (h : HeadWord items.length head) (hItems : ∀ item ∈ items, ValueWord item) :
    ValueWord (head ++ items.flatten) := by
  obtain ⟨marker, layout, body, hLayout, hBody, rfl⟩ := h
  cases layout with
  | payload length extra =>
      obtain ⟨hNone, count, payload, hCarries, hLength, rfl⟩ := hBody
      rw [List.eq_nil_of_length_eq_zero hNone, List.flatten_nil, List.append_nil]
      exact ValueWord.of_payload hLayout hCarries hLength
  | values count each =>
      obtain ⟨entries, hCarries, hLength, rfl⟩ := hBody
      exact ValueWord.of_values hLayout hCarries hLength hItems

/-- Complete values one behind the other, `count` of them. -/
def ValueWords (count : Nat) (word : Bytes) : Prop :=
  ∃ items : List Bytes, items.length = count ∧ (∀ item ∈ items, ValueWord item) ∧
    word = items.flatten

theorem valueWords_one (word : Bytes) : ValueWords 1 word ↔ ValueWord word := by
  constructor
  · rintro ⟨items, hLength, hItems, rfl⟩
    obtain ⟨item, rfl⟩ := List.length_eq_one_iff.mp hLength
    simpa using hItems
  · intro h
    exact ⟨[word], rfl, by simpa using h, by simp⟩

/-- Each value takes at least a byte, so the reader's test on the number of pending values never
refuses an input that holds them all. -/
theorem ValueWords.le_length {count : Nat} {word : Bytes} (h : ValueWords count word) :
    count ≤ word.length := by
  obtain ⟨items, rfl, hItems, rfl⟩ := h
  induction items with
  | nil => simp
  | cons item items ih =>
      obtain ⟨hHead, hTail⟩ := List.forall_mem_cons.mp hItems
      have hPos := hHead.length_pos
      have hRest := ih hTail
      rw [List.length_cons, List.flatten_cons, List.length_append]
      omega

theorem skipValues_succ (others : Nat) (input : Input) :
    skipValues (others + 1) input = if input.size ≤ others then .error .truncated
      else (valueHead >>= fun inner => skipValues (others + inner)) input := by
  rw [skipValues]
  split
  · rfl
  · simp only [bind, StateT.bind, Except.bind]
    split <;> next hRead => rw [hRead]

/-- Reading past the word settles one pending value and no other. The other values still to come
need a byte each, or the reader stops before it looks at the word. -/
def Settles (word : Bytes) : Prop :=
  ∀ (others : Nat) (input rest : Input), input.bytes = word ++ rest.bytes → others ≤ rest.size →
    skipValues (others + 1) input = skipValues others rest

theorem Settles.items {items : List Bytes} (hItems : ∀ item ∈ items, ValueWord item)
    (hSettles : ∀ item ∈ items, Settles item) (others : Nat) (input rest : Input)
    (hBytes : input.bytes = items.flatten ++ rest.bytes) (hRest : others ≤ rest.size) :
    skipValues (others + items.length) input = skipValues others rest := by
  induction items generalizing input with
  | nil => rw [Input.eq_of_bytes_eq hBytes, List.length_nil, Nat.add_zero]
  | cons item items ih =>
      obtain ⟨-, hTail⟩ := List.forall_mem_cons.mp hItems
      obtain ⟨hHead, hOthers⟩ := List.forall_mem_cons.mp hSettles
      have hLe : items.length ≤ items.flatten.length :=
        ValueWords.le_length ⟨items, rfl, hTail, rfl⟩
      have hMiddle : others + items.length ≤ (Input.ofBytes (items.flatten ++ rest.bytes)).size := by
        rw [Input.size_ofBytes, List.length_append, ← rest.size_eq]
        omega
      rw [List.length_cons, ← Nat.add_assoc, hHead _ input _ (by simpa using hBytes) hMiddle]
      exact ih hTail hOthers _ rfl

theorem ValueWord.settles {word : Bytes} (h : ValueWord word) : Settles word := by
  refine h.induction_head fun inner head items hHead hLength hItems ih => ?_
  intro others input rest hBytes hRest
  have hLe : inner ≤ items.flatten.length := ValueWords.le_length ⟨items, hLength, hItems, rfl⟩
  have hPos := hHead.length_pos
  have hGuard : ¬input.size ≤ others := by
    rw [input.size_eq, hBytes, List.length_append, List.length_append, ← rest.size_eq]
    omega
  have hRead : valueHead input = .ok (inner, Input.ofBytes (items.flatten ++ rest.bytes)) :=
    reads_valueHead.ok hHead (by simpa using hBytes)
  rw [skipValues_succ, if_neg hGuard, bind_ok hRead, ← hLength]
  exact Settles.items hItems ih others _ rest rfl hRest

/-- The pending values are read past exactly where as many complete values stand. -/
theorem reads_skipValues (pending : Nat) :
    Reads (skipValues pending) (fun _ word => ValueWords pending word) := by
  intro input rest value
  constructor
  · intro h
    induction pending, input using skipValues.induct with
    | case1 input =>
        rw [skipValues] at h
        cases h
        exact ⟨[], ⟨[], rfl, by simp, rfl⟩, rfl⟩
    | case2 input others hGuard =>
        rw [skipValues_succ, if_pos hGuard] at h
        cases h
    | case3 input others hGuard fault hRead =>
        rw [skipValues_succ, if_neg hGuard, bind_error hRead] at h
        cases h
    | case4 input others hGuard inner middle hRead ih =>
        rw [skipValues_succ, if_neg hGuard, bind_ok hRead] at h
        obtain ⟨word, ⟨items, hLength, hItems, rfl⟩, hMiddle⟩ := ih h
        obtain ⟨head, hHead, hInput⟩ := (reads_valueHead input middle inner).mp hRead
        have hOwn : ValueWord (head ++ (items.take inner).flatten) := by
          refine HeadWord.append_items ?_ fun item hItem => hItems item (List.mem_of_mem_take hItem)
          rwa [List.length_take, hLength, Nat.min_eq_left (Nat.le_add_left _ _)]
        refine ⟨_, ⟨(head ++ (items.take inner).flatten) :: items.drop inner, ?_, ?_, rfl⟩, ?_⟩
        · rw [List.length_cons, List.length_drop]
          omega
        · exact List.forall_mem_cons.mpr ⟨hOwn, fun item hItem => hItems item (List.mem_of_mem_drop hItem)⟩
        · rw [hInput, hMiddle, List.flatten_cons, List.append_assoc head, ← List.flatten_append,
            List.take_append_drop, List.append_assoc]
  · rintro ⟨word, ⟨items, rfl, hItems, rfl⟩, hBytes⟩
    have hSkip := Settles.items hItems (fun item hItem => (hItems item hItem).settles) 0 input rest
      hBytes (Nat.zero_le _)
    rw [Nat.zero_add] at hSkip
    rw [hSkip, skipValues]

theorem reads_skip : Reads skip (fun _ word => ValueWord word) :=
  (reads_skipValues 1).of_iff fun _ word => valueWords_one word

end BlockFeed.MessagePack
