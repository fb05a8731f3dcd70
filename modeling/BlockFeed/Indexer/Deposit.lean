import BlockFeed.Indexer.DepositStatus
import BlockFeed.Indexer.LatestHeight

/-! Deposits as an indexer reports them. The stage of a deposit is kept as the name that was given,
so that a report with a stage unknown to this library is read all the same. -/

namespace BlockFeed.Indexer

/-- A report on a deposit: the transaction on Bitcoin, the one that minted it on the other side,
once there is one, and the height of the block with the first, once it is confirmed. -/
@[ext]
structure Deposit where
  btcTxId : String
  status : String
  suiTxId : Option String
  blockHeight : Option Int64
  confirmations : Int64
  suiRecipient : String
  amountSats : Int64
  deriving DecidableEq, Repr

namespace Deposit

/-- The stage of a deposit, if its name is known. -/
def knownStatus (deposit : Deposit) : Option DepositStatus := DepositStatus.ofName? deposit.status

/-- The names of the fields in their order. -/
def names : List String := [
  "btc_tx_id", "status", "sui_tx_id", "block_height", "confirmations", "sui_recipient",
  "amount_sats"]

/-- A text, or null where there is none. -/
def textJson : Option String → Json
  | some text => .string (some text)
  | none => .null

/-- A deposit as a JSON object. -/
def toJson (deposit : Deposit) : Json :=
  .object [
    (some "btc_tx_id", .string (some deposit.btcTxId)),
    (some "status", .string (some deposit.status)),
    (some "sui_tx_id", textJson deposit.suiTxId),
    (some "block_height", LatestHeight.heightJson deposit.blockHeight),
    (some "confirmations", .integer deposit.confirmations.toInt),
    (some "sui_recipient", .string (some deposit.suiRecipient)),
    (some "amount_sats", .integer deposit.amountSats.toInt)]

/-- A deposit from a JSON value. -/
def ofJson? (json : Json) : Option Deposit := do
  let members ← json.members? names names.length
  let btcTxId ← members.required? "btc_tx_id" Json.string?
  let status ← members.required? "status" Json.string?
  let suiTxId ← members.withDefault? "sui_tx_id" none (Json.optional? Json.string?)
  let blockHeight ← members.withDefault? "block_height" none (Json.optional? Json.int64?)
  let confirmations ← members.required? "confirmations" Json.int64?
  let suiRecipient ← members.required? "sui_recipient" Json.string?
  let amountSats ← members.required? "amount_sats" Json.int64?
  return { btcTxId, status, suiTxId, blockHeight, confirmations, suiRecipient, amountSats }

/-- A deposit as JSON text. -/
def text (deposit : Deposit) : String := deposit.toJson.text

/-- A deposit from JSON text. -/
def ofText? (text : String) : Option Deposit := (Json.ofText? text).bind ofJson?

/-- Deposits as JSON text. -/
def listText (deposits : List Deposit) : String := (Json.array (deposits.map toJson)).text

/-- Deposits from JSON text. -/
def listOfText? (text : String) : Option (List Deposit) :=
  (Json.ofText? text).bind (Json.list? ofJson?)

end Deposit

end BlockFeed.Indexer
