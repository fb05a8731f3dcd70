import BlockFeed.Json.Members

/-! The Bitcoin networks that an indexer follows. -/

namespace BlockFeed.Indexer

/-- A Bitcoin network. -/
inductive Network
  | mainnet
  | testnet
  | regtest
  | signet
  deriving DecidableEq, Repr

namespace Network

/-- All networks. -/
def all : List Network := [mainnet, testnet, regtest, signet]

/-- The name of a network. -/
def name : Network → String
  | mainnet => "mainnet"
  | testnet => "testnet"
  | regtest => "regtest"
  | signet => "signet"

/-- The network of a name. -/
def ofName? (name : String) : Option Network := all.find? fun network => network.name = name

@[simp] theorem ofName?_name (network : Network) : ofName? network.name = some network := by
  cases network <;> decide

/-- A network as a JSON value. -/
def toJson (network : Network) : Json := .string (some network.name)

/-- A network from a JSON value. -/
def ofJson? : Json → Option Network := Json.named? ofName?

/-- A network as JSON text. -/
def text (network : Network) : String := network.toJson.text

/-- A network from JSON text. -/
def ofText? (text : String) : Option Network := (Json.ofText? text).bind ofJson?

end Network

end BlockFeed.Indexer
