import BlockFeed.Proofs.Json.Members

/-! The order of members. `Reordered` is the least congruence that permutes the members of objects,
and `Rearranged` is the same for texts, in which blanks and literals are free too. A reader of
values that respects the first one gives the same result for two texts related by the second one. -/

namespace BlockFeed.Json

/-- Values that differ in the order of the members of their objects only, at any depth. -/
inductive Reordered : Json → Json → Prop
  | refl (json : Json) : Reordered json json
  | trans {first second third : Json} (hLeft : Reordered first second)
      (hRight : Reordered second third) : Reordered first third
  | members {members permuted : List (Option String × Json)} (hPerm : members.Perm permuted) :
      Reordered (object members) (object permuted)
  | item {before after : List Json} {item item' : Json} (hInner : Reordered item item') :
      Reordered (array (before ++ item :: after)) (array (before ++ item' :: after))
  | member {before after : List (Option String × Json)} {key : Option String}
      {value value' : Json} (hInner : Reordered value value') :
      Reordered (object (before ++ (key, value) :: after))
        (object (before ++ (key, value') :: after))

/-- The second text holds the value of the first one, with the members of all objects in some order
and with blanks and literals of any kind. -/
def Rearranged (text text' : String) : Prop :=
  ∃ json json', Reordered json json' ∧ Token.Spelled json.tokens text.toList ∧
    Token.Spelled json'.tokens text'.toList

/-- The order of members is the same to a reader. -/
def Respects {α : Type} (read : Json → Option α) : Prop :=
  ∀ ⦃json json'⦄, Reordered json json' → read json = read json'

/-- A reader that respects the order of members reads rearranged texts alike. -/
theorem Respects.of_rearranged {α : Type} {read : Json → Option α} (hRespects : Respects read)
    {text text' : String} (hRearranged : Rearranged text text') :
    (ofText? text').bind read = (ofText? text).bind read := by
  obtain ⟨json, json', hReordered, hSpelled, hSpelled'⟩ := hRearranged
  rw [ofText?_of_spelled hSpelled, ofText?_of_spelled hSpelled']
  exact (hRespects hReordered).symm

section Values

variable {α : Type} {read : Json → Option α}

/-- A reader that tells no arrays and no objects apart respects the order of members. -/
theorem respects_of_flat (hArrays : ∀ items items', read (array items) = read (array items'))
    (hObjects : ∀ members members', read (object members) = read (object members')) :
    Respects read := by
  intro json json' hReordered
  induction hReordered with
  | refl => rfl
  | trans _ _ hLeft hRight => exact hLeft.trans hRight
  | members _ => exact hObjects _ _
  | item _ _ => exact hArrays _ _
  | member _ _ => exact hObjects _ _

theorem respects_int64? : Respects int64? := respects_of_flat (fun _ _ => rfl) fun _ _ => rfl

theorem respects_uint64? : Respects uint64? := respects_of_flat (fun _ _ => rfl) fun _ _ => rfl

theorem respects_bool? : Respects bool? := respects_of_flat (fun _ _ => rfl) fun _ _ => rfl

theorem respects_string? : Respects string? := respects_of_flat (fun _ _ => rfl) fun _ _ => rfl

theorem Respects.optional? (hRespects : Respects read) : Respects (optional? read) := by
  intro json json' hReordered
  induction hReordered with
  | refl => rfl
  | trans _ _ hLeft hRight => exact hLeft.trans hRight
  | members hPerm => simp [Json.optional?, hRespects (.members hPerm)]
  | item hInner _ => simp [Json.optional?, hRespects (.item hInner)]
  | member hInner _ => simp [Json.optional?, hRespects (.member hInner)]

theorem Respects.list? (hRespects : Respects read) : Respects (list? read) := by
  intro json json' hReordered
  induction hReordered with
  | refl => rfl
  | trans _ _ hLeft hRight => exact hLeft.trans hRight
  | members _ => rfl
  | item hInner _ => simp [Json.list?, hRespects hInner]
  | member _ _ => rfl

end Values

section Fields

/-- Fields that are given under the same names, with values that differ in order only. -/
def SameFields (fields fields' : Members) : Prop :=
  ∀ name, Option.Rel Reordered (fields.lookup name) (fields'.lookup name)

theorem SameFields.refl (fields : Members) : SameFields fields fields := by
  intro name
  cases fields.lookup name with
  | none => exact .none
  | some value => exact .some (.refl value)

theorem SameFields.cons {fields fields' : Members} {name : String} {value value' : Json}
    (hInner : Reordered value value') (hSame : SameFields fields fields') :
    SameFields ((name, value) :: fields) ((name, value') :: fields') := by
  intro other
  rw [List.lookup_cons, List.lookup_cons]
  split
  · exact .some hInner
  · exact hSame other

/-- With no name twice, the order of the fields does not matter. -/
theorem SameFields.of_perm {fields permuted : Members} (hPerm : fields.Perm permuted)
    (hOnce : (fields.map Prod.fst).Nodup) : SameFields fields permuted := by
  have hOnce' : (permuted.map Prod.fst).Nodup := (hPerm.map Prod.fst).nodup_iff.mp hOnce
  intro name
  have hSame : fields.lookup name = permuted.lookup name := by
    ext value
    rw [Members.lookup_eq_some_iff_mem hOnce, Members.lookup_eq_some_iff_mem hOnce', hPerm.mem_iff]
  rw [← hSame]
  exact SameFields.refl fields name

/-- One value of an array for another one, under the names of the fields. -/
theorem sameFields_zip {item item' : Json} (hInner : Reordered item item') (names : List String)
    (before after : List Json) :
    SameFields (names.zip (before ++ item :: after)) (names.zip (before ++ item' :: after)) := by
  induction before generalizing names with
  | nil =>
      cases names with
      | nil => exact .refl _
      | cons name names => exact .cons hInner (.refl _)
  | cons first before ih =>
      cases names with
      | nil => exact .refl _
      | cons name names => exact .cons (.refl first) (ih names)

/-- One value of a member for another one. -/
theorem sameFields_ofObject {value value' : Json} (hInner : Reordered value value')
    (names : List String) (key : Option String) (before after : List (Option String × Json)) :
    SameFields (Members.ofObject names (before ++ (key, value) :: after))
      (Members.ofObject names (before ++ (key, value') :: after)) := by
  induction before with
  | nil =>
      cases key with
      | none => exact .refl _
      | some name =>
          by_cases hKnown : name ∈ names
          · simpa [Members.ofObject, hKnown] using SameFields.cons hInner (.refl _)
          · simpa [Members.ofObject, hKnown] using SameFields.refl _
  | cons first before ih =>
      obtain ⟨key, given⟩ := first
      cases key with
      | none => exact ih
      | some name =>
          by_cases hKnown : name ∈ names
          · simpa [Members.ofObject, hKnown] using SameFields.cons (.refl given) ih
          · simpa [Members.ofObject, hKnown] using ih

variable {α : Type} {read : Json → Option α} {fields fields' : Members} {name : String}

theorem SameFields.required? (hSame : SameFields fields fields') (hRespects : Respects read) :
    fields.required? name read = fields'.required? name read := by
  have hValues := hSame name
  rw [Members.required?, Members.required?]
  generalize fields.lookup name = value, fields'.lookup name = value' at hValues
  cases hValues with
  | none => rfl
  | some hInner => exact hRespects hInner

theorem SameFields.withDefault? (hSame : SameFields fields fields') (hRespects : Respects read)
    (absent : α) :
    fields.withDefault? name absent read = fields'.withDefault? name absent read := by
  have hValues := hSame name
  rw [Members.withDefault?, Members.withDefault?]
  generalize fields.lookup name = value, fields'.lookup name = value' at hValues
  cases hValues with
  | none => rfl
  | some hInner => exact hRespects hInner

/-- A record that is read field by field respects the order of members. -/
theorem respects_record {names : List String} {least : Nat} {ofFields : Members → Option α}
    (hEach : ∀ ⦃fields fields'⦄, SameFields fields fields' → ofFields fields = ofFields fields') :
    Respects fun json => (members? names least json).bind ofFields := by
  -- By one step of reordering after another: each keeps what is accepted and the fields.
  intro json json' hReordered
  induction hReordered with
  | refl => rfl
  | trans _ _ hLeft hRight => exact hLeft.trans hRight
  | @members members permuted hPerm =>
      have hFields : (Members.ofObject names members).Perm (Members.ofObject names permuted) :=
        (hPerm.filterMap _).filter _
      have hAllowed := Members.oneEach_perm names (hPerm.map Prod.fst)
      simp only [members?_object, ← hAllowed]
      split
      · rename_i hAccepted
        exact hEach (.of_perm hFields (Members.nodup_ofObject.mpr hAccepted.2))
      · rfl
  | @item before after item item' hInner _ =>
      simp only [members?, List.length_append, List.length_cons]
      split
      · exact hEach (sameFields_zip hInner names before after)
      · rfl
  | @member before after key value value' hInner _ =>
      simp only [members?_object, List.map_append, List.map_cons]
      split
      · exact hEach (sameFields_ofObject hInner names key before after)
      · rfl

end Fields

section Texts

/-- Values survive their way through text, and so does what is read when a text is rearranged. -/
structure RoundTrips {α : Type} (write : α → String) (read : String → Option α) : Prop where
  /-- What is written is the text of a JSON value. -/
  holds : ∀ value, ∃ json : Json, write value = json.text
  /-- What is written is read back. -/
  written : ∀ value, read (write value) = some value
  /-- The order of members, blanks and the choice of literals are nothing to the reader. -/
  rearranged : ∀ text text', Rearranged text text' → read text' = read text

/-- A value is read from any arrangement of the text that is written for it. -/
theorem RoundTrips.read_of_rearranged {α : Type} {write : α → String} {read : String → Option α}
    (hRoundTrips : RoundTrips write read) {value : α} {text : String}
    (hRearranged : Rearranged (write value) text) : read text = some value := by
  rw [hRoundTrips.rearranged _ _ hRearranged, hRoundTrips.written]

theorem RoundTrips.of_json {α : Type} {toJson : α → Json} {ofJson? : Json → Option α}
    (hInverse : ∀ value, ofJson? (toJson value) = some value) (hRespects : Respects ofJson?) :
    RoundTrips (fun value => (toJson value).text) fun text => (ofText? text).bind ofJson? where
  holds value := ⟨toJson value, rfl⟩
  written value := by simp [ofText?_text, hInverse]
  rearranged _ _ := hRespects.of_rearranged

theorem list?_map {α : Type} {toJson : α → Json} {ofJson? : Json → Option α}
    (hInverse : ∀ value, ofJson? (toJson value) = some value) (values : List α) :
    list? ofJson? (array (values.map toJson)) = some values := by
  induction values with
  | nil => rfl
  | cons value values ih =>
      simp only [list?] at ih
      simp [list?, hInverse, ih]

end Texts

end BlockFeed.Json
