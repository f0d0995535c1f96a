import CoolHierarchy.Json.Token

/-!
# Printing JSON

A value is printed without blanks, as the texts of its tokens one after the other.
-/

namespace CoolHierarchy.Json

mutual

def tokens : Json → List Token
  | .null => [.null]
  | .bool b => [.bool b]
  | .number n => [.number n]
  | .string text? => [.string text?]
  | .array [] => [.openArray, .closeArray]
  | .array (v :: rest) => .openArray :: (tokens v ++ moreItems rest)
  | .object [] => [.openObject, .closeObject]
  | .object ((key, v) :: rest) =>
    .openObject :: .string key :: .colon :: (tokens v ++ moreMembers rest)

/-- The tokens from the end of one item to the end of its array. -/
def moreItems : List Json → List Token
  | [] => [.closeArray]
  | v :: rest => .comma :: (tokens v ++ moreItems rest)

/-- The tokens from the end of one member to the end of its object. -/
def moreMembers : List (Option String × Json) → List Token
  | [] => [.closeObject]
  | (key, v) :: rest => .comma :: .string key :: .colon :: (tokens v ++ moreMembers rest)

end

def render (v : Json) : String :=
  String.ofList (v.tokens.flatMap Token.text)

end CoolHierarchy.Json
