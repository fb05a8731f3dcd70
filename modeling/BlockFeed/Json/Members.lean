import BlockFeed.Json.Value

/-! Values of fixed types from JSON. A record with named fields is an object, or an array of its
fields in order. In an object the order is free, members of other names are passed over whatever
their value, and no field is given twice. -/

namespace BlockFeed.Json

/-- An integer in the range of a signed 64-bit number. -/
def int64? : Json → Option Int64
  | integer value =>
      if Int64.minValue.toInt ≤ value ∧ value ≤ Int64.maxValue.toInt then
        some (Int64.ofInt value)
      else
        none
  | _ => none

/-- An integer in the range of an unsigned 64-bit number. -/
def uint64? : Json → Option UInt64
  | integer value =>
      if 0 ≤ value ∧ value < UInt64.size then some (UInt64.ofNat value.toNat) else none
  | _ => none

/-- A truth value. -/
def bool? : Json → Option Bool
  | bool value => some value
  | _ => none

/-- A text. -/
def string? : Json → Option String
  | string content => content
  | _ => none

/-- A value that may be absent, which is written as null. -/
def optional? {α : Type} (read : Json → Option α) : Json → Option (Option α)
  | null => some none
  | json => (read json).map some

/-- A list of values. -/
def list? {α : Type} (read : Json → Option α) : Json → Option (List α)
  | array items => items.mapM read
  | _ => none

/-- A case of an enumeration, which is written as its name, or as an object with that name over
null. -/
def named? {α : Type} (ofName? : String → Option α) : Json → Option α
  | string (some name) => ofName? name
  | object [(some name, null)] => ofName? name
  | _ => none

/-- The fields of a record that are given, each under its name. -/
abbrev Members := List (String × Json)

/-- The fields of a record, by name. All names in an object have to be texts. An array gives at
least the `least` first fields. -/
def members? (names : List String) (least : Nat) : Json → Option Members
  | array items =>
      if least ≤ items.length ∧ items.length ≤ names.length then some (names.zip items) else none
  | object members =>
      let named := members.filterMap fun (key, value) => key.map (·, value)
      let known := named.filter fun (name, _) => names.contains name
      if (members.all fun (key, _) => key.isSome) ∧ (known.map Prod.fst).Nodup then
        some known
      else
        none
  | _ => none

namespace Members

/-- The value of a field that has to be there. -/
def required? {α : Type} (members : Members) (name : String) (read : Json → Option α) : Option α :=
  match members.lookup name with
  | some json => read json
  | none => none

/-- The value of a field that has a default. -/
def withDefault? {α : Type} (members : Members) (name : String) (absent : α)
    (read : Json → Option α) : Option α :=
  match members.lookup name with
  | some json => read json
  | none => some absent

end Members

end BlockFeed.Json
