import CoolHierarchy.Json.Number

/-!
# JSON values

A value keeps what was written: members in their order and with repeated keys, numbers as
literals. A string that names half of a surrogate pair is well-formed JSON but stands for no text;
it is kept as `none`.
-/

namespace CoolHierarchy

inductive Json where
  | null
  | bool (b : Bool)
  | number (n : NumberLiteral)
  | string (text? : Option String)
  | array (items : List Json)
  | object (members : List (Option String × Json))
deriving Repr, Inhabited

namespace Json

def ofString (s : String) : Json := .string (some s)

def ofNat (n : Nat) : Json := .number (.ofNat n)

def ofStrings (ss : List String) : Json := .array (ss.map ofString)

def ofOption (f : α → Json) (x : Option α) : Json := x.elim .null f

def ofMembers (members : List (String × Json)) : Json :=
  .object (members.map fun (k, v) => (some k, v))

def asString? : Json → Option String
  | .string text? => text?
  | _ => none

def asNat? : Json → Option Nat
  | .number n => n.toNat?
  | _ => none

def asArray? : Json → Option (List Json)
  | .array items => some items
  | _ => none

/-- The value of a member. Of several members with one key the last counts. -/
def get? (key : String) : Json → Option Json
  | .object members => (members.reverse.find? fun m => m.1 == some key).map Prod.snd
  | _ => none

mutual

/-- Whether every string in a value stands for a text, every number is finite, and containers are
nested at most `depth` deep. -/
def isPlain (depth : Nat) : Json → Bool
  | .null => true
  | .bool _ => true
  | .number n => n.isFinite
  | .string text? => text?.isSome
  | .array items =>
    match depth with
    | 0 => false
    | d + 1 => arePlain d items
  | .object members =>
    match depth with
    | 0 => false
    | d + 1 => membersArePlain d members

def arePlain (depth : Nat) : List Json → Bool
  | [] => true
  | v :: rest => isPlain depth v && arePlain depth rest

def membersArePlain (depth : Nat) : List (Option String × Json) → Bool
  | [] => true
  | (k, v) :: rest => k.isSome && isPlain depth v && membersArePlain depth rest

end

end Json

end CoolHierarchy
