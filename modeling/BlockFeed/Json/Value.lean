import BlockFeed.Json.Token

/-! JSON values. `Json.tokens` writes a value as tokens, and `Json.build` reads them back with the
open containers in a list, so that the depth of a text costs no more than its length. All members of
an object are kept in their order, those of equal name too. -/

namespace BlockFeed

/-- A JSON value, as far as the tokens tell it. -/
inductive Json
  | null
  | bool (value : Bool)
  | integer (value : Int)
  | fraction
  | string (content : Option String)
  | array (items : List Json)
  | object (members : List (Option String × Json))

namespace Json

mutual

/-- The tokens of a value. -/
def tokens : Json → List Token
  | null => [.null]
  | bool value => [.bool value]
  | integer value => [.integer value]
  | fraction => [.fraction]
  | string content => [.string content]
  | array items => .openBracket :: itemTokens items ++ [.closeBracket]
  | object members => .openBrace :: memberTokens members ++ [.closeBrace]

/-- The tokens of the items of an array. -/
def itemTokens : List Json → List Token
  | [] => []
  | [item] => tokens item
  | item :: next :: rest => tokens item ++ .comma :: itemTokens (next :: rest)

/-- The tokens of the members of an object. -/
def memberTokens : List (Option String × Json) → List Token
  | [] => []
  | [(key, value)] => .string key :: .colon :: tokens value
  | (key, value) :: next :: rest =>
      .string key :: .colon :: tokens value ++ .comma :: memberTokens (next :: rest)

end

/-- A value as text without blanks. -/
def text (json : Json) : String := String.ofList (json.tokens.flatMap Token.text)

/-- A container whose end is not reached, with what is done of it, last first. An object's frame
has the name of the member whose value comes next. -/
inductive Frame
  | array (done : List Json)
  | object (done : List (Option String × Json)) (key : Option String)

/-- Reads the tokens of one value inside the open containers, innermost first. Either a value has
just ended, or one has to start. -/
def build : List Frame → Option Json → List Token → Option Json
  | frames, none, .null :: rest => build frames (some null) rest
  | frames, none, .bool value :: rest => build frames (some (bool value)) rest
  | frames, none, .integer value :: rest => build frames (some (integer value)) rest
  | frames, none, .fraction :: rest => build frames (some fraction) rest
  | frames, none, .string content :: rest => build frames (some (string content)) rest
  | frames, none, .openBracket :: .closeBracket :: rest => build frames (some (array [])) rest
  | frames, none, .openBracket :: rest => build (.array [] :: frames) none rest
  | frames, none, .openBrace :: .closeBrace :: rest => build frames (some (object [])) rest
  | frames, none, .openBrace :: .string key :: .colon :: rest =>
      build (.object [] key :: frames) none rest
  | .array done :: frames, some value, .comma :: rest =>
      build (.array (value :: done) :: frames) none rest
  | .array done :: frames, some value, .closeBracket :: rest =>
      build frames (some (array (value :: done).reverse)) rest
  | .object done key :: frames, some value, .comma :: .string next :: .colon :: rest =>
      build (.object ((key, value) :: done) next :: frames) none rest
  | .object done key :: frames, some value, .closeBrace :: rest =>
      build frames (some (object ((key, value) :: done).reverse)) rest
  | [], some value, [] => some value
  | _, _, _ => none

/-- The value that a text holds, with nothing but blanks around it. -/
def ofText? (text : String) : Option Json := do
  let tokens ← Token.scan text.toList
  build [] none tokens

end Json

end BlockFeed
