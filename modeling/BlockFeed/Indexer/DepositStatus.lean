import BlockFeed.Json.Members

/-! The stages of a deposit. -/

namespace BlockFeed.Indexer

/-- How far a deposit has come, or what has stopped it. -/
inductive DepositStatus
  | confirming
  | finalized
  | minted
  | failed
  | reorg
  deriving DecidableEq, Repr

namespace DepositStatus

/-- All stages, in the order in which deposits come to them. -/
def all : List DepositStatus := [confirming, finalized, minted, failed, reorg]

/-- The name of a stage. -/
def name : DepositStatus → String
  | confirming => "confirming"
  | finalized => "finalized"
  | minted => "minted"
  | failed => "failed"
  | reorg => "reorg"

/-- The stage of a name. -/
def ofName? (name : String) : Option DepositStatus := all.find? fun status => status.name = name

@[simp] theorem ofName?_name (status : DepositStatus) : ofName? status.name = some status := by
  cases status <;> decide

/-- A stage as a JSON value. -/
def toJson (status : DepositStatus) : Json := .string (some status.name)

/-- A stage from a JSON value. -/
def ofJson? : Json → Option DepositStatus := Json.named? ofName?

/-- A stage as JSON text. -/
def text (status : DepositStatus) : String := status.toJson.text

/-- A stage from JSON text. -/
def ofText? (text : String) : Option DepositStatus := (Json.ofText? text).bind ofJson?

end DepositStatus

end BlockFeed.Indexer
