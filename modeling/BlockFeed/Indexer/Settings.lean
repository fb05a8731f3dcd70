import BlockFeed.Batch.Limits
import BlockFeed.Bitcoin.Header
import BlockFeed.Json.Members

/-! Limits as the settings of a service. They are written as a JSON object, and a text that gives
some of them leaves the others standard. -/

namespace BlockFeed.Limits

/-- Limits that fit the blocks of the main network. -/
def mainnet : Limits := { maxBlockSize := UInt64.ofNat Bitcoin.Header.maxBlockSize }

/-- The names of the limits in their order. -/
def names : List String := ["max_records", "max_block_size", "allow_trailing_bytes"]

/-- Limits as a JSON object. -/
def toJson (limits : Limits) : Json :=
  .object [
    (some "max_records", .integer limits.maxRecords.toNat),
    (some "max_block_size", .integer limits.maxBlockSize.toNat),
    (some "allow_trailing_bytes", .bool limits.allowTrailing)]

/-- The number of records for a text that gives none. -/
def absentMaxRecords : UInt64 := 0xffffffff

/-- The size of a block for a text that gives none. -/
def absentMaxBlockSize : UInt64 := 0xffffffff

/-- Whether bytes may be left, for a text that does not say. -/
def absentAllowTrailing : Bool := false

/-- Limits from a JSON value. Each limit that it does not give has a value of its own. -/
def ofJson? (json : Json) : Option Limits := do
  let members ← json.members? names 0
  let maxRecords ← members.withDefault? "max_records" absentMaxRecords Json.uint64?
  let maxBlockSize ← members.withDefault? "max_block_size" absentMaxBlockSize Json.uint64?
  let allowTrailing ←
    members.withDefault? "allow_trailing_bytes" absentAllowTrailing Json.bool?
  return { maxRecords, maxBlockSize, allowTrailing }

/-- Limits as JSON text. -/
def text (limits : Limits) : String := limits.toJson.text

/-- Limits from JSON text. -/
def ofText? (text : String) : Option Limits := (Json.ofText? text).bind ofJson?

end BlockFeed.Limits
