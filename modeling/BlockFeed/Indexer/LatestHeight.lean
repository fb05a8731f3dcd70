import BlockFeed.Json.Members

/-! The answer to the question for the latest height. -/

namespace BlockFeed.Indexer

/-- The height of the latest block that an indexer knows, if it knows one. -/
@[ext]
structure LatestHeight where
  height : Option Int64 := none
  deriving DecidableEq, Repr

namespace LatestHeight

/-- The names of the fields in their order. -/
def names : List String := ["height"]

/-- An integer, or null where there is none. -/
def heightJson : Option Int64 → Json
  | some height => .integer height.toInt
  | none => .null

/-- The answer as a JSON object. -/
def toJson (latest : LatestHeight) : Json :=
  .object [(some "height", heightJson latest.height)]

/-- The answer from a JSON value. -/
def ofJson? (json : Json) : Option LatestHeight := do
  let members ← json.members? names names.length
  let height ← members.withDefault? "height" none (Json.optional? Json.int64?)
  return { height }

/-- The answer as JSON text. -/
def text (latest : LatestHeight) : String := latest.toJson.text

/-- The answer from JSON text. -/
def ofText? (text : String) : Option LatestHeight := (Json.ofText? text).bind ofJson?

end LatestHeight

end BlockFeed.Indexer
