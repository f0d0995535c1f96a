import CoolHierarchy.Declaration

/-!
# The basic classes

Five classes exist in every program. They are registered before all others and in a fixed order,
so the root of the hierarchy always comes first. Their names are reserved.
-/

namespace CoolHierarchy

/-- A class that every program has. -/
inductive Builtin where
  | object
  | io
  | string
  | int
  | bool
deriving DecidableEq, Repr, Inhabited

namespace Builtin

/-- The basic classes in the order of registration. -/
def all : List Builtin := [object, io, string, int, bool]

def name : Builtin → String
  | object => "Object"
  | io => "IO"
  | string => "String"
  | int => "Int"
  | bool => "Bool"

def ofName? (name : String) : Option Builtin :=
  all.find? fun b => b.name == name

/-- A sealed class can not be inherited from. -/
def isSealed : Builtin → Bool
  | object | io => false
  | string | int | bool => true

def acceptsMethods : Builtin → Bool
  | object | io | string => true
  | int | bool => false

/-- Place of the class in `all`. -/
def position : Builtin → Nat
  | object => 0
  | io => 1
  | string => 2
  | int => 3
  | bool => 4

def declaration (b : Builtin) : ClassDeclaration :=
  let d := ClassDeclaration.named b.name
  match b with
  | object =>
    d |>.withMethod "abort" [] "Object"
      |>.withMethod "type_name" [] "String"
      |>.withMethod "copy" [] "Object"
  | io =>
    d |>.inheriting "Object"
      |>.withMethod "out_string" [("x", "String")] "IO"
      |>.withMethod "out_int" [("x", "Int")] "IO"
      |>.withMethod "in_string" [] "String"
      |>.withMethod "in_int" [] "Int"
  | string =>
    d |>.inheriting "Object"
      |>.withMethod "length" [] "Int"
      |>.withMethod "concat" [("s", "String")] "String"
      |>.withMethod "substr" [("i", "Int"), ("l", "Int")] "String"
  | int | bool => d.inheriting "Object"

theorem all_getElem? (b : Builtin) : all[b.position]? = some b := by
  cases b <;> rfl

@[simp] theorem declaration_name (b : Builtin) : b.declaration.name.name = b.name := by
  cases b <;> rfl

theorem ofName?_name (b : Builtin) : ofName? b.name = some b := by
  cases b <;> decide

theorem name_eq_of_ofName? {name : String} {b : Builtin} (h : ofName? name = some b) :
    b.name = name := by
  simpa using List.find?_some h

end Builtin

/-- Name of the class that all others descend from. -/
def rootName : String := Builtin.object.name

def isSealedName (name : String) : Bool :=
  (Builtin.ofName? name).any Builtin.isSealed

def isReservedName (name : String) : Bool :=
  (Builtin.ofName? name).isSome

end CoolHierarchy
