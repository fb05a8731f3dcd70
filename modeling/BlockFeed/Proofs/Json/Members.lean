import BlockFeed.Json.Members
import BlockFeed.Proofs.Json.Value

/-! The fields of records. An object gives a field by a member of its name, and of the members with
other names nothing is left but that they do not stop it. What is written for a number is read as
that number. -/

namespace BlockFeed.Json

@[simp] theorem int64?_toInt (value : Int64) : int64? (.integer value.toInt) = some value := by
  have hRange : Int64.minValue.toInt ≤ value.toInt ∧ value.toInt ≤ Int64.maxValue.toInt :=
    ⟨value.minValue_le_toInt, value.toInt_le⟩
  rw [int64?, if_pos hRange, Int64.ofInt_toInt]

@[simp] theorem uint64?_toNat (value : UInt64) : uint64? (.integer value.toNat) = some value := by
  have hRange : (0 : Int) ≤ value.toNat ∧ (value.toNat : Int) < UInt64.size :=
    ⟨Int.natCast_nonneg _, Int.ofNat_lt.mpr value.toNat_lt_size⟩
  rw [uint64?, if_pos hRange, Int.toNat_natCast, UInt64.ofNat_toNat]

/-- An integer outside the range of a limit is none. -/
theorem uint64?_eq_none {value : Int} (hOutside : ¬ (0 ≤ value ∧ value < UInt64.size)) :
    uint64? (.integer value) = none := if_neg hOutside

namespace Members

/-- The members of an object that have one of the names. -/
def ofObject (names : List String) (members : List (Option String × Json)) : Members :=
  (members.filterMap fun (key, value) => key.map (·, value)).filter fun (name, _) =>
    names.contains name

variable {names : List String} {members : List (Option String × Json)}

theorem mem_ofObject {name : String} {value : Json} :
    (name, value) ∈ ofObject names members ↔ name ∈ names ∧ (some name, value) ∈ members := by
  simp [ofObject, and_comm]

/-- The names that may stand in an object: all are texts, and no field comes twice. -/
def OneEach (names : List String) (keys : List (Option String)) : Prop :=
  (∀ key ∈ keys, key.isSome) ∧ ∀ name ∈ names, keys.count (some name) ≤ 1

instance (names : List String) (keys : List (Option String)) : Decidable (OneEach names keys) :=
  inferInstanceAs (Decidable (_ ∧ _))

theorem oneEach_perm (names : List String) {keys permuted : List (Option String)}
    (hPerm : keys.Perm permuted) : OneEach names keys ↔ OneEach names permuted := by
  simp only [OneEach, hPerm.mem_iff, hPerm.count_eq]

/-- A field is given as often as its name stands in the object. -/
theorem count_ofObject {name : String} (hKnown : name ∈ names) :
    ((ofObject names members).map Prod.fst).count name =
      (members.map Prod.fst).count (some name) := by
  induction members with
  | nil => rfl
  | cons member members ih =>
      obtain ⟨key, value⟩ := member
      cases key with
      | none => simpa [ofObject] using ih
      | some other =>
          by_cases hListed : other ∈ names
          · simpa [ofObject, hListed, List.count_cons] using ih
          · have hDifferent : other ≠ name := fun hSame => hListed (hSame ▸ hKnown)
            simpa [ofObject, hListed, hDifferent] using ih

theorem nodup_ofObject :
    ((ofObject names members).map Prod.fst).Nodup ↔
      ∀ name ∈ names, (members.map Prod.fst).count (some name) ≤ 1 := by
  rw [List.nodup_iff_count]
  constructor
  · intro hOnce name hKnown
    simpa [count_ofObject hKnown] using hOnce name
  · intro hOnce name
    by_cases hKnown : name ∈ names
    · simpa [count_ofObject hKnown] using hOnce name hKnown
    · have hAbsent : name ∉ (ofObject names members).map Prod.fst := by
        simp [mem_ofObject, hKnown]
      simp [List.count_eq_zero_of_not_mem hAbsent]

/-- With no name twice, a field has the one value that it is given. -/
theorem lookup_of_mem {fields : Members} (hOnce : (fields.map Prod.fst).Nodup) {name : String}
    {value : Json} (hGiven : (name, value) ∈ fields) : fields.lookup name = some value := by
  induction fields with
  | nil => simp at hGiven
  | cons field fields ih =>
      obtain ⟨first, other⟩ := field
      obtain ⟨hFresh, hOnce⟩ := List.nodup_cons.mp hOnce
      obtain hSame | hLater := List.mem_cons.mp hGiven
      · simp [← hSame]
      · have hDifferent : name ≠ first := by
          rintro rfl
          exact hFresh (List.mem_map.mpr ⟨(name, value), hLater, rfl⟩)
        simpa [List.lookup_cons, beq_eq_false_iff_ne.mpr hDifferent] using ih hOnce hLater

/-- The value of a field is given by some member. -/
theorem mem_of_lookup {fields : Members} {name : String} {value : Json}
    (hFound : fields.lookup name = some value) : (name, value) ∈ fields := by
  obtain ⟨before, after, hSame, -⟩ := List.lookup_eq_some_iff.mp hFound
  simp [hSame]

theorem lookup_eq_some_iff_mem {fields : Members} (hOnce : (fields.map Prod.fst).Nodup)
    {name : String} {value : Json} :
    fields.lookup name = some value ↔ (name, value) ∈ fields :=
  ⟨mem_of_lookup, lookup_of_mem hOnce⟩

/-- A name that does not stand in the object gives nothing. -/
theorem lookup_ofObject_eq_none {name : String} (hAbsent : some name ∉ members.map Prod.fst) :
    (ofObject names members).lookup name = none := by
  rw [List.lookup_eq_none_iff]
  intro field hGiven
  rw [bne_iff_ne]
  rintro rfl
  exact hAbsent (List.mem_map.mpr ⟨_, (mem_ofObject.mp hGiven).2, rfl⟩)

section

variable {α : Type} {fields : Members} {name : String} {read : Json → Option α}

@[simp] theorem withDefault?_cons_self (value : Json) (absent : α) :
    withDefault? ((name, value) :: fields) name absent read = read value := by
  simp [withDefault?]

theorem withDefault?_cons_of_ne {other : String} (hDifferent : name ≠ other) (value : Json)
    (absent : α) :
    withDefault? ((other, value) :: fields) name absent read =
      fields.withDefault? name absent read := by
  simp [withDefault?, List.lookup_cons, beq_eq_false_iff_ne.mpr hDifferent]

theorem withDefault?_of_fresh (hFresh : fields.lookup name = none) (absent : α)
    (read : Json → Option α) : fields.withDefault? name absent read = some absent := by
  simp [withDefault?, hFresh]

/-- A value that is given only counts if it can be read. -/
theorem withDefault?_of_mem (hOnce : (fields.map Prod.fst).Nodup) {value : Json}
    (hGiven : (name, value) ∈ fields) (absent : α) (read : Json → Option α) :
    fields.withDefault? name absent read = read value := by
  simp [withDefault?, lookup_of_mem hOnce hGiven]

end

end Members

open Members

/-- An object gives its fields if its names allow it. -/
theorem members?_object (names : List String) (least : Nat)
    (members : List (Option String × Json)) :
    members? names least (object members) =
      if OneEach names (members.map Prod.fst) then some (ofObject names members) else none := by
  simp only [OneEach, ← nodup_ofObject]
  simp only [members?, ofObject, List.all_eq_true, List.forall_mem_map]

theorem keys_zip_sublist (keys : List (Option String)) (values : List Json) :
    ((keys.zip values).map Prod.fst).Sublist keys := by
  induction keys generalizing values with
  | nil => simp
  | cons key keys ih =>
      cases values with
      | nil => simp
      | cons value values => simpa using ih values

/-- The names of the first fields, each once. -/
theorem oneEach_zip {names : List String} (hDistinct : names.Nodup) (values : List Json) :
    OneEach names (((names.map some).zip values).map Prod.fst) := by
  have hFirst := keys_zip_sublist (names.map some) values
  have hOnce : (names.map some).Nodup :=
    List.Pairwise.map some (fun _ _ hOther hSame => hOther (Option.some.inj hSame)) hDistinct
  constructor
  · intro key hMember
    obtain ⟨name, -, rfl⟩ := List.mem_map.mp (hFirst.subset hMember)
    rfl
  · intro name _
    exact (hFirst.count_le _).trans (List.nodup_iff_count.mp hOnce _)

theorem ofObject_zip (names : List String) (values : List Json) :
    ofObject names ((names.map some).zip values) = names.zip values := by
  have hNamed : ((names.map some).zip values).filterMap (fun (key, value) => key.map (·, value)) =
      names.zip values := by
    rw [List.zip_map_left, List.filterMap_map]
    simp
  rw [ofObject, hNamed, List.filter_eq_self]
  intro field hMember
  simp [(List.of_mem_zip hMember).1]

/-- An object that gives its first fields in order is read as an array of their values. -/
theorem members?_zip {names : List String} (hDistinct : names.Nodup) (least : Nat)
    (values : List Json) :
    members? names least (object ((names.map some).zip values)) = some (names.zip values) := by
  rw [members?_object, if_pos (oneEach_zip hDistinct values), ofObject_zip]

end BlockFeed.Json
