import CoolHierarchy.Declaration
import CoolHierarchy.Json.Parser

/-!
# Reading declarations from JSON

A record is written as an object or as an array. In an object the fields stand in any order, each
at most once, and members with other names are passed over. In an array the fields stand in the
order of declaration, and fields at the end may be left out. Either way a field that is left out
takes its default value, if it has one.

The kind of a feature has to be known before its other fields make sense, so a feature is taken in
as a whole: all of it must be plain text and finite numbers, nested no deeper than a document may
be, also where it is passed over.
-/

namespace CoolHierarchy

/-- How deep the containers of a document may be nested. -/
def maxNesting : Nat := 127

namespace Json

/-- The fields of a record whose fields have the given names. -/
def record? (names : List String) : Json → Option (List (String × Json))
  | .array items =>
    if items.length ≤ names.length then some (names.zip items) else none
  | .object members => do
    let members ← members.mapM fun (key, v) => key.map fun key => (key, v)
    let fields := members.filter fun m => names.contains m.1
    if (fields.map Prod.fst).Nodup then some fields else none
  | _ => none

def required (fields : List (String × Json)) (name : String) (read : Json → Option α) :
    Option α := do
  read (← fields.lookup name)

def optional (fields : List (String × Json)) (name : String) (default : α)
    (read : Json → Option α) : Option α :=
  match fields.lookup name with
  | some v => read v
  | none => some default

def listOf? (read : Json → Option α) (v : Json) : Option (List α) := do
  (← v.asArray?).mapM read

/-- Reads null as nothing. -/
def nullable? (read : Json → Option α) : Json → Option (Option α)
  | .null => some none
  | v => (read v).map some

def asUInt32? (v : Json) : Option UInt32 := do
  let n ← v.asNat?
  if n < UInt32.size then some (UInt32.ofNat n) else none

end Json

def Span.ofJson? (v : Json) : Option Span := do
  let fields ← v.record? ["start", "end"]
  let start ← Json.required fields "start" Json.asUInt32?
  let stop ← Json.required fields "end" Json.asUInt32?
  some { start, stop }

def Identifier.ofJson? (v : Json) : Option Identifier := do
  let fields ← v.record? ["name", "span"]
  let name ← Json.required fields "name" Json.asString?
  let span ← Json.optional fields "span" .origin Span.ofJson?
  some { name, span }

def Formal.ofJson? (v : Json) : Option Formal := do
  let fields ← v.record? ["name", "type_name", "span"]
  let name ← Json.required fields "name" Json.asString?
  let typeName ← Json.required fields "type_name" Json.asString?
  let span ← Json.optional fields "span" .origin Span.ofJson?
  some { name, typeName, span }

def Method.ofJson? (v : Json) : Option Method := do
  let fields ← v.record? ["kind", "name", "formals", "return_type", "span"]
  let name ← Json.required fields "name" Json.asString?
  let formals ← Json.optional fields "formals" [] (Json.listOf? Formal.ofJson?)
  let returnType ← Json.required fields "return_type" Json.asString?
  let span ← Json.optional fields "span" .origin Span.ofJson?
  some { name, formals, returnType, span }

def Attribute.ofJson? (v : Json) : Option Attribute := do
  let fields ← v.record? ["kind", "name", "type_name", "span"]
  let name ← Json.required fields "name" Json.asString?
  let typeName ← Json.required fields "type_name" Json.asString?
  let span ← Json.optional fields "span" .origin Span.ofJson?
  some { name, typeName, span }

namespace Feature

/-- The kind that a record of a feature names: its first item or its member `kind`. -/
def kind? : Json → Option String
  | .array items => items.head?.bind Json.asString?
  | v => do
    let fields ← v.record? ["kind"]
    Json.required fields "kind" Json.asString?

/-- Reads a feature whose containers are nested at most `depth` deep. -/
def ofJson? (depth : Nat) (v : Json) : Option Feature :=
  if !v.isPlain depth then none
  else match kind? v with
    | some "method" => (Method.ofJson? v).map .ofMethod
    | some "attribute" => (Attribute.ofJson? v).map .ofAttribute
    | _ => none

end Feature

namespace ClassDeclaration

/-- Reads a declaration in a place where containers may be nested `depth` deep. Two of them are
the declaration and the list of its features. -/
def ofJson? (depth : Nat) (v : Json) : Option ClassDeclaration := do
  let fields ← v.record? ["name", "parent", "features", "span"]
  let name ← Json.required fields "name" Identifier.ofJson?
  let parent ← Json.optional fields "parent" none (Json.nullable? Identifier.ofJson?)
  let features ← Json.optional fields "features" [] (Json.listOf? (Feature.ofJson? (depth - 2)))
  let span ← Json.optional fields "span" .origin Span.ofJson?
  some { name, parent, features, span }

def ofText? (text : String) : Option ClassDeclaration := do
  ofJson? maxNesting (← Json.ofText? text)

end ClassDeclaration

def Span.ofText? (text : String) : Option Span := do
  Span.ofJson? (← Json.ofText? text)

end CoolHierarchy
