import BlockFeed.Indexer.Settings
import BlockFeed.Proofs.Json.Members
import Mathlib.Data.List.Count
import Mathlib.Data.Option.Basic

/-! Settings over the standard limits. An object of settings gives each limit at most once, among
members of other names, and what it gives is laid over the standard limits, one member after
another. A limit that comes twice, that is null or that is out of range spoils the whole object. An
array of values is read as the object that gives them their names. -/

namespace BlockFeed.Limits

open Json Json.Members

/-- A member of an object of settings: one of the limits, or a member of another name. -/
inductive Setting
  | maxRecords (value : UInt64)
  | maxBlockSize (value : UInt64)
  | allowTrailing (value : Bool)
  | other (name : String) (value : Json) (hUnknown : name ∉ names)

namespace Setting

/-- The name of the member. -/
def name : Setting → String
  | maxRecords _ => "max_records"
  | maxBlockSize _ => "max_block_size"
  | allowTrailing _ => "allow_trailing_bytes"
  | other name _ _ => name

/-- The value of the member. -/
def value : Setting → Json
  | maxRecords value => .integer value.toNat
  | maxBlockSize value => .integer value.toNat
  | allowTrailing value => .bool value
  | other _ value _ => value

/-- Limits with a setting laid over them. -/
def apply (limits : Limits) : Setting → Limits
  | maxRecords value => { limits with maxRecords := value }
  | maxBlockSize value => { limits with maxBlockSize := value }
  | allowTrailing value => { limits with allowTrailing := value }
  | other _ _ _ => limits

/-- The setting as a member of an object. -/
def member (setting : Setting) : Option String × Json := (some setting.name, setting.value)

/-- The settings that give all of the limits. -/
def all (limits : Limits) : List Setting :=
  [maxRecords limits.maxRecords, maxBlockSize limits.maxBlockSize,
    allowTrailing limits.allowTrailing]

end Setting

/-- Limits with settings laid over them in their order. -/
def overlay (limits : Limits) (settings : List Setting) : Limits :=
  settings.foldl Setting.apply limits

/-- No limit is given twice. -/
def EachOnce (settings : List Setting) : Prop :=
  ∀ name ∈ names, (settings.map Setting.name).count name ≤ 1

/-- The members of an object that gives a limit twice, as null or out of its range. -/
inductive Spoiled (members : List (Option String × Json)) : Prop
  | twice {name : String} (hKnown : name ∈ names)
      (hGiven : 2 ≤ (members.map Prod.fst).count (some name))
  | null {name : String} (hKnown : name ∈ names) (hGiven : (some name, .null) ∈ members)
  | outside {name : String} {value : Int} (hKnown : name ∈ ["max_records", "max_block_size"])
      (hGiven : (some name, .integer value) ∈ members)
      (hOutside : value < 0 ∨ 0x10000000000000000 ≤ value)

/-- Limits from the fields that are given, and others for those that are not. -/
def ofFields (absent : Limits) (fields : Json.Members) : Option Limits := do
  let maxRecords ← fields.withDefault? "max_records" absent.maxRecords Json.uint64?
  let maxBlockSize ← fields.withDefault? "max_block_size" absent.maxBlockSize Json.uint64?
  let allowTrailing ← fields.withDefault? "allow_trailing_bytes" absent.allowTrailing Json.bool?
  return { maxRecords, maxBlockSize, allowTrailing }

/-- The values of absent limits are together the standard limits. -/
theorem absent_eq_standard :
    (⟨absentMaxRecords, absentMaxBlockSize, absentAllowTrailing⟩ : Limits) = standard := rfl

theorem ofJson?_eq (json : Json) :
    ofJson? json = (json.members? names 0).bind (ofFields standard) := by
  rw [← absent_eq_standard]
  rfl

/-- A field that is given first is as good as a default for the rest. -/
theorem ofFields_cons {setting : Setting} (hKnown : setting.name ∈ names) {fields : Json.Members}
    (hFresh : fields.lookup setting.name = none) (limits : Limits) :
    ofFields limits ((setting.name, setting.value) :: fields) =
      ofFields (setting.apply limits) fields := by
  cases setting with
  | maxRecords value =>
      have hLater : fields.withDefault? "max_records" value uint64? = some value :=
        withDefault?_of_fresh hFresh value uint64?
      simp [ofFields, Setting.name, Setting.value, Setting.apply, withDefault?_cons_of_ne, hLater]
  | maxBlockSize value =>
      have hLater : fields.withDefault? "max_block_size" value uint64? = some value :=
        withDefault?_of_fresh hFresh value uint64?
      simp [ofFields, Setting.name, Setting.value, Setting.apply, withDefault?_cons_of_ne, hLater]
  | allowTrailing value =>
      have hLater : fields.withDefault? "allow_trailing_bytes" value bool? = some value :=
        withDefault?_of_fresh hFresh value bool?
      simp [ofFields, Setting.name, Setting.value, Setting.apply, withDefault?_cons_of_ne, hLater,
        bool?]
  | other name value hUnknown => exact absurd hKnown hUnknown

theorem ofObject_known {setting : Setting} (hKnown : setting.name ∈ names)
    (settings : List Setting) :
    ofObject names ((setting :: settings).map Setting.member) =
      (setting.name, setting.value) :: ofObject names (settings.map Setting.member) := by
  simp [ofObject, Setting.member, hKnown]

/-- A member of another name is neither a field nor does it change the limits. -/
theorem ofObject_unknown {setting : Setting} (hUnknown : setting.name ∉ names)
    (settings : List Setting) :
    ofObject names ((setting :: settings).map Setting.member) =
      ofObject names (settings.map Setting.member) := by
  simp [ofObject, Setting.member, hUnknown]

theorem Setting.apply_unknown {setting : Setting} (hUnknown : setting.name ∉ names)
    (limits : Limits) : setting.apply limits = limits := by
  cases setting with
  | other name value _ => rfl
  | _ => simp [Setting.name, names] at hUnknown

theorem map_fst_member (settings : List Setting) :
    (settings.map Setting.member).map Prod.fst = (settings.map Setting.name).map some := by
  simp [Setting.member]

section

variable {settings : List Setting} {setting : Setting}

theorem EachOnce.tail (hOnce : EachOnce (setting :: settings)) : EachOnce settings := by
  intro name hKnown
  exact ((List.sublist_cons_self _ _).count_le name).trans (hOnce name hKnown)

/-- A limit that comes first is not given by the rest. -/
theorem EachOnce.fresh (hOnce : EachOnce (setting :: settings)) (hKnown : setting.name ∈ names) :
    (ofObject names (settings.map Setting.member)).lookup setting.name = none := by
  have hSingle := hOnce setting.name hKnown
  simp only [List.map_cons, List.count_cons_self] at hSingle
  have hZero : (settings.map Setting.name).count setting.name = 0 := by omega
  apply lookup_ofObject_eq_none
  rw [map_fst_member, List.mem_map_of_injective (Option.some_injective String)]
  exact List.not_mem_of_count_eq_zero hZero

theorem EachOnce.oneEach (hOnce : EachOnce settings) :
    OneEach names ((settings.map Setting.member).map Prod.fst) := by
  rw [map_fst_member]
  refine ⟨by simp, fun name hKnown => ?_⟩
  rw [List.count_map_of_injective _ _ (Option.some_injective String)]
  exact hOnce name hKnown

/-- In the order of the fields no limit comes twice. -/
theorem EachOnce.of_order (hOrder : settings.map Setting.name <+: names) : EachOnce settings := by
  have hDistinct : names.Nodup := by decide
  intro name _
  exact (hOrder.sublist.count_le name).trans (List.nodup_iff_count.mp hDistinct name)

/-- Settings are laid over what is there for the limits that they do not give. -/
theorem ofFields_ofObject (hOnce : EachOnce settings) (limits : Limits) :
    ofFields limits (ofObject names (settings.map Setting.member)) =
      some (overlay limits settings) := by
  -- Each limit moves from the fields to the limits that count where no field is given.
  induction settings generalizing limits with
  | nil => rfl
  | cons setting settings ih =>
      by_cases hKnown : setting.name ∈ names
      · rw [ofObject_known hKnown, ofFields_cons hKnown (hOnce.fresh hKnown), ih hOnce.tail]
        rfl
      · rw [ofObject_unknown hKnown, ih hOnce.tail, overlay, overlay, List.foldl_cons,
          Setting.apply_unknown hKnown]

/-- The limits that an object of settings gives. -/
theorem ofJson?_settings (hOnce : EachOnce settings) :
    ofJson? (.object (settings.map Setting.member)) = some (overlay standard settings) := by
  rw [ofJson?_eq, members?_object, if_pos hOnce.oneEach, Option.bind_some, ofFields_ofObject hOnce]

example : ofJson? (.object [(some "retries", .null), (some "max_records", .integer 5)]) =
    some { maxRecords := 5 } := by decide

end

/-- Limits are written as settings of all of them. -/
theorem ofJson?_toJson (limits : Limits) : ofJson? limits.toJson = some limits := by
  have hOrder : (Setting.all limits).map Setting.name = names := rfl
  have hOnce : EachOnce (Setting.all limits) := .of_order (hOrder ▸ List.prefix_refl names)
  have hShape : limits.toJson = .object ((Setting.all limits).map Setting.member) := rfl
  rw [hShape, ofJson?_settings hOnce]
  simp [overlay, Setting.all, Setting.apply]

/-- A limit whose value cannot be read leaves none of the limits. -/
theorem ofFields_eq_none {fields : Members} (hOnce : (fields.map Prod.fst).Nodup) {name : String}
    {value : Json} (hGiven : (name, value) ∈ fields) (hKnown : name ∈ names)
    (hNumber : uint64? value = none)
    (hTruth : name = "allow_trailing_bytes" → bool? value = none) (limits : Limits) :
    ofFields limits fields = none := by
  simp only [names, List.mem_cons, List.not_mem_nil, or_false] at hKnown
  obtain rfl | rfl | rfl := hKnown
  · simp [ofFields, withDefault?_of_mem hOnce hGiven, hNumber]
  · simp [ofFields, withDefault?_of_mem hOnce hGiven, hNumber]
  · simp [ofFields, withDefault?_of_mem hOnce hGiven, hTruth]

/-- What spoils an object stops its reader. -/
theorem ofJson?_spoiled {members : List (Option String × Json)} (hSpoiled : Spoiled members) :
    ofJson? (.object members) = none := by
  rw [ofJson?_eq, members?_object]
  split
  · rename_i hAllowed
    have hOnce := nodup_ofObject.mpr hAllowed.2
    cases hSpoiled with
    | twice hKnown hGiven =>
        have hSingle := hAllowed.2 _ hKnown
        omega
    | @null name hKnown hGiven =>
        have hField := mem_ofObject.mpr ⟨hKnown, hGiven⟩
        exact ofFields_eq_none hOnce hField hKnown rfl (fun _ => rfl) standard
    | @outside name value hKnown hGiven hOutside =>
        have hLimit : name ∈ names := by
          simp only [List.mem_cons, List.not_mem_nil, or_false] at hKnown
          obtain rfl | rfl := hKnown <;> decide
        have hField := mem_ofObject.mpr ⟨hLimit, hGiven⟩
        have hTooLarge : uint64? (.integer value) = none := by
          apply uint64?_eq_none
          have hSize : ((UInt64.size : Nat) : Int) = 0x10000000000000000 := rfl
          omega
        exact ofFields_eq_none hOnce hField hLimit hTooLarge (fun _ => rfl) standard
  · rfl

/-- An array of values is read as the object that gives them the names of the limits in order. -/
theorem ofJson?_array {items : List Json} (hFits : items.length ≤ names.length) :
    ofJson? (.array items) = ofJson? (.object ((names.map some).zip items)) := by
  have hDistinct : names.Nodup := by decide
  rw [ofJson?_eq, ofJson?_eq, members?_zip hDistinct]
  simp [members?, hFits]

theorem ofJson?_long_array {items : List Json} (hLong : names.length < items.length) :
    ofJson? (.array items) = none := by
  rw [ofJson?_eq]
  simp [members?, Nat.not_le.mpr hLong]

theorem zip_map_member {settings : List Setting} {first : List String}
    (hOrder : settings.map Setting.name <+: first) :
    (first.map some).zip (settings.map Setting.value) = settings.map Setting.member := by
  induction settings generalizing first with
  | nil => simp
  | cons setting settings ih =>
      obtain ⟨later, rfl⟩ := hOrder
      simpa [Setting.member] using ih (List.prefix_append _ later)

/-- A text that gives some of the limits is read as these over the standard ones, in an object in
any order and among other members, in an array in the order of the fields. Nothing is read from an
object with a limit that comes twice, is null or is out of its range, or from a longer array. -/
theorem overlay_of_text :
    (∀ (settings : List Setting) (text : String), EachOnce settings →
      Token.Spelled (Json.object (settings.map Setting.member)).tokens text.toList →
      ofText? text = some (overlay standard settings)) ∧
    (∀ (members : List (Option String × Json)) (text : String), Spoiled members →
      Token.Spelled (Json.object members).tokens text.toList → ofText? text = none) ∧
    (∀ (settings : List Setting) (text : String), settings.map Setting.name <+: names →
      Token.Spelled (Json.array (settings.map Setting.value)).tokens text.toList →
      ofText? text = some (overlay standard settings)) ∧
    (∀ (items : List Json) (text objectText : String), items.length ≤ names.length →
      Token.Spelled (Json.array items).tokens text.toList →
      Token.Spelled (Json.object ((names.map some).zip items)).tokens objectText.toList →
      ofText? text = ofText? objectText) ∧
    (∀ (items : List Json) (text : String), names.length < items.length →
      Token.Spelled (Json.array items).tokens text.toList → ofText? text = none) := by
  refine ⟨?_, ?_, ?_, ?_, ?_⟩
  · intro settings text hOnce hSpelled
    simp [ofText?, ofText?_of_spelled hSpelled, ofJson?_settings hOnce]
  · intro members text hSpoiled hSpelled
    simp [ofText?, ofText?_of_spelled hSpelled, ofJson?_spoiled hSpoiled]
  · intro settings text hOrder hSpelled
    have hFits : (settings.map Setting.value).length ≤ names.length := by
      simpa using hOrder.length_le
    have hNamed := ofJson?_array hFits
    rw [zip_map_member hOrder, ofJson?_settings (.of_order hOrder)] at hNamed
    simp [ofText?, ofText?_of_spelled hSpelled, hNamed]
  · intro items text objectText hFits hSpelled hNamed
    simp [ofText?, ofText?_of_spelled hSpelled, ofText?_of_spelled hNamed, ofJson?_array hFits]
  · intro items text hLong hSpelled
    simp [ofText?, ofText?_of_spelled hSpelled, ofJson?_long_array hLong]

end BlockFeed.Limits
