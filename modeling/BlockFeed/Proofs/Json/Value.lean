import BlockFeed.Json.Value
import BlockFeed.Proofs.Json.Token

/-! Values and the texts that spell them. A value is built from its tokens inside any open
containers, so that every text that spells these tokens, with blanks and literals of any kind, holds
the value. -/

namespace BlockFeed.Json

/-- A property holds for all values when it passes from the parts of a container to the whole. -/
@[elab_as_elim, induction_eliminator]
theorem induction {motive : Json → Prop} (null : motive null)
    (bool : ∀ value, motive (bool value)) (integer : ∀ value, motive (integer value))
    (fraction : motive fraction) (string : ∀ content, motive (string content))
    (array : ∀ items, (∀ item ∈ items, motive item) → motive (array items))
    (object : ∀ members, (∀ member ∈ members, motive member.2) → motive (object members)) :
    ∀ json, motive json
  | .null => null
  | .bool value => bool value
  | .integer value => integer value
  | .fraction => fraction
  | .string content => string content
  | .array items => array items fun item _ =>
      induction null bool integer fraction string array object item
  | .object members => object members fun member _ =>
      induction null bool integer fraction string array object member.2
decreasing_by
  · have hSmaller := List.sizeOf_lt_of_mem ‹_›
    simp only [Json.array.sizeOf_spec]
    omega
  · have hSmaller := List.sizeOf_lt_of_mem ‹_›
    simp only [Json.object.sizeOf_spec]
    cases member
    simp only [Prod.mk.sizeOf_spec] at hSmaller ⊢
    omega

/-- The tokens of the items that stand behind another one. -/
def laterItems (items : List Json) : List Token := items.flatMap fun item => .comma :: item.tokens

/-- The tokens of the members that stand behind another one. -/
def laterMembers (members : List (Option String × Json)) : List Token :=
  members.flatMap fun (key, value) => .comma :: .string key :: .colon :: value.tokens

theorem itemTokens_cons (item : Json) (items : List Json) :
    itemTokens (item :: items) = item.tokens ++ laterItems items := by
  induction items generalizing item with
  | nil => simp [itemTokens, laterItems]
  | cons next items ih => simp [itemTokens, ih, laterItems]

theorem memberTokens_cons (member : Option String × Json)
    (members : List (Option String × Json)) :
    memberTokens (member :: members) =
      .string member.1 :: .colon :: (member.2.tokens ++ laterMembers members) := by
  induction members generalizing member with
  | nil => simp [memberTokens, laterMembers]
  | cons next members ih => simp [memberTokens, ih, laterMembers]

section Apart

/-- Tokens that may stand behind a value. -/
structure Follows (rest : List Token) : Prop where
  apart : Token.Apart rest
  noNumber : ∀ token ∈ rest.head?, token.isNumber = false

/-- A number may stand in front of what may stand behind a value. -/
theorem Follows.apart_cons {rest : List Token} (hFollows : Follows rest) (token : Token) :
    Token.Apart (token :: rest) :=
  List.isChain_cons.mpr ⟨fun next hMember _ => hFollows.noNumber next hMember, hFollows.apart⟩

theorem Follows.cons {token : Token} {rest : List Token} (hNoNumber : token.isNumber = false)
    (hApart : Token.Apart rest) : Follows (token :: rest) where
  apart := List.isChain_cons.mpr ⟨fun _ _ hNumber => by simp [hNoNumber] at hNumber, hApart⟩
  noNumber := by simp [hNoNumber]

variable {rest : List Token}

theorem follows_laterItems {items : List Json} (hFollows : Follows rest)
    (hEach : ∀ item ∈ items, ∀ {rest}, Follows rest → Token.Apart (item.tokens ++ rest)) :
    Follows (laterItems items ++ rest) := by
  induction items with
  | nil => exact hFollows
  | cons item items ih =>
      obtain ⟨hFirst, hOthers⟩ := List.forall_mem_cons.mp hEach
      have hApart := hFirst (ih hOthers)
      have hBehind : Follows (.comma :: _) := .cons rfl hApart
      simpa [laterItems] using hBehind

theorem apart_member (key : Option String) {value : Json} (hFollows : Follows rest)
    (hInside : ∀ {rest}, Follows rest → Token.Apart (value.tokens ++ rest)) :
    Token.Apart (.string key :: .colon :: (value.tokens ++ rest)) :=
  Follows.apart_cons (.cons rfl (hInside hFollows)) _

theorem follows_laterMembers {members : List (Option String × Json)} (hFollows : Follows rest)
    (hEach : ∀ member ∈ members, ∀ {rest}, Follows rest →
      Token.Apart (member.2.tokens ++ rest)) :
    Follows (laterMembers members ++ rest) := by
  induction members with
  | nil => exact hFollows
  | cons member members ih =>
      obtain ⟨hFirst, hOthers⟩ := List.forall_mem_cons.mp hEach
      have hApart := apart_member member.1 (ih hOthers) hFirst
      have hBehind : Follows (.comma :: _) := .cons rfl hApart
      simpa [laterMembers] using hBehind

/-- In a value, and between it and what follows, no number stands right before another one. -/
theorem apart_tokens_append (json : Json) (hFollows : Follows rest) :
    Token.Apart (json.tokens ++ rest) := by
  -- What follows an item is a comma or a bracket, so the rest has to be any.
  induction json generalizing rest with
  | array items ih =>
      have hClosed : Follows (.closeBracket :: rest) := .cons rfl hFollows.apart
      cases items with
      | nil => simpa [tokens, itemTokens] using hClosed.apart_cons _
      | cons item items =>
          obtain ⟨hFirst, hOthers⟩ := List.forall_mem_cons.mp ih
          have hInside := hFirst (follows_laterItems hClosed hOthers)
          have hOpened : Follows (.openBracket :: _) := .cons rfl hInside
          simpa [tokens, itemTokens_cons] using hOpened.apart
  | object members ih =>
      have hClosed : Follows (.closeBrace :: rest) := .cons rfl hFollows.apart
      cases members with
      | nil => simpa [tokens, memberTokens] using hClosed.apart_cons _
      | cons member members =>
          obtain ⟨hFirst, hOthers⟩ := List.forall_mem_cons.mp ih
          have hInside := apart_member member.1 (follows_laterMembers hClosed hOthers) hFirst
          have hOpened : Follows (.openBrace :: _) := .cons rfl hInside
          simpa [tokens, memberTokens_cons] using hOpened.apart
  | _ => exact hFollows.apart_cons _

/-- In a value, no number stands right before another one. -/
theorem apart_tokens (json : Json) : Token.Apart json.tokens := by
  have hNothing : Follows [] := ⟨.nil, by simp⟩
  simpa using json.apart_tokens_append hNothing

end Apart

section Building

/-- The first token of a value does not close an array. -/
theorem tokens_eq_cons (json : Json) :
    ∃ first rest, json.tokens = first :: rest ∧ first ≠ .closeBracket := by
  cases json <;> simp [tokens]

theorem build_openBracket (json : Json) (frames : List Frame) (rest : List Token) :
    build frames none (.openBracket :: (json.tokens ++ rest)) =
      build (.array [] :: frames) none (json.tokens ++ rest) := by
  obtain ⟨first, others, hSame, hNoEnd⟩ := json.tokens_eq_cons
  rw [hSame, List.cons_append, build]
  simp [hNoEnd]

/-- Behind an item that has just ended, the rest of the array is built. -/
theorem build_laterItems {items : List Json} (item : Json) (done : List Json)
    (frames : List Frame) (rest : List Token)
    (hEach : ∀ item ∈ items, ∀ frames rest,
      build frames none (item.tokens ++ rest) = build frames (some item) rest) :
    build (.array done :: frames) (some item) (laterItems items ++ .closeBracket :: rest) =
      build frames (some (array (done.reverse ++ item :: items))) rest := by
  induction items generalizing item done with
  | nil => simp [laterItems, build]
  | cons next items ih =>
      obtain ⟨hFirst, hOthers⟩ := List.forall_mem_cons.mp hEach
      have hBehind := ih next (item :: done) hOthers
      simpa [laterItems, build, hFirst] using hBehind

/-- Behind a member that has just ended, the rest of the object is built. -/
theorem build_laterMembers {members : List (Option String × Json)} (key : Option String)
    (value : Json) (done : List (Option String × Json)) (frames : List Frame) (rest : List Token)
    (hEach : ∀ member ∈ members, ∀ frames rest,
      build frames none (member.2.tokens ++ rest) = build frames (some member.2) rest) :
    build (.object done key :: frames) (some value) (laterMembers members ++ .closeBrace :: rest) =
      build frames (some (object (done.reverse ++ (key, value) :: members))) rest := by
  induction members generalizing key value done with
  | nil => simp [laterMembers, build]
  | cons next members ih =>
      obtain ⟨hFirst, hOthers⟩ := List.forall_mem_cons.mp hEach
      have hBehind := ih next.1 next.2 ((key, value) :: done) hOthers
      simpa [laterMembers, build, hFirst] using hBehind

/-- A value is built from its tokens, inside any open containers. -/
theorem build_tokens (json : Json) (frames : List Frame) (rest : List Token) :
    build frames none (json.tokens ++ rest) = build frames (some json) rest := by
  -- The items and members are built inside one more frame, so the frames have to be any.
  induction json generalizing frames rest with
  | array items ih =>
      cases items with
      | nil => simp [tokens, itemTokens, build]
      | cons item items =>
          obtain ⟨hFirst, hOthers⟩ := List.forall_mem_cons.mp ih
          have hBehind := build_laterItems item [] frames rest hOthers
          simpa [tokens, itemTokens_cons, build_openBracket, hFirst] using hBehind
  | object members ih =>
      cases members with
      | nil => simp [tokens, memberTokens, build]
      | cons member members =>
          obtain ⟨hFirst, hOthers⟩ := List.forall_mem_cons.mp ih
          have hBehind := build_laterMembers member.1 member.2 [] frames rest hOthers
          simpa [tokens, memberTokens_cons, build, hFirst] using hBehind
  | _ => simp [tokens, build]

/-- A text holds the value whose tokens it spells. -/
theorem ofText?_of_spelled {json : Json} {text : String}
    (hSpelled : Token.Spelled json.tokens text.toList) : ofText? text = some json := by
  have hBuilt : build [] none json.tokens = some json := by
    simpa [build] using json.build_tokens [] []
  simp [ofText?, Token.scan_of_spelled hSpelled json.apart_tokens, hBuilt]

/-- A value is spelled as it is written. -/
theorem spelled_text (json : Json) : Token.Spelled json.tokens json.text.toList := by
  simpa [text] using Token.spelled_text json.tokens

/-- A value is read as it is written. -/
theorem ofText?_text (json : Json) : ofText? json.text = some json :=
  ofText?_of_spelled json.spelled_text

end Building

end BlockFeed.Json
