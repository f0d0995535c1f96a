import CoolHierarchy.Span

/-!
# Class declarations

The records a parser hands over: one declaration per `class Name inherits Parent` clause, with its
attributes and methods in the order of the source. Method bodies play no part in a hierarchy and
are not kept.
-/

namespace CoolHierarchy

/-- A name and the place where it is written. -/
structure Identifier where
  name : String
  span : Span := .origin
deriving DecidableEq, Repr, Inhabited

structure Formal where
  name : String
  typeName : String
  span : Span := .origin
deriving DecidableEq, Repr, Inhabited

structure Attribute where
  name : String
  typeName : String
  span : Span := .origin
deriving DecidableEq, Repr, Inhabited

structure Method where
  name : String
  formals : List Formal := []
  returnType : String
  span : Span := .origin
deriving DecidableEq, Repr, Inhabited

inductive Feature where
  | ofMethod (m : Method)
  | ofAttribute (a : Attribute)
deriving DecidableEq, Repr, Inhabited

namespace Feature

def name : Feature → String
  | ofMethod m => m.name
  | ofAttribute a => a.name

def asAttribute? : Feature → Option Attribute
  | ofAttribute a => some a
  | ofMethod _ => none

def asMethod? : Feature → Option Method
  | ofMethod m => some m
  | ofAttribute _ => none

end Feature

/-- One declared class. Without a parent clause `parent` is `none`. -/
structure ClassDeclaration where
  name : Identifier
  parent : Option Identifier := none
  features : List Feature := []
  span : Span := .origin
deriving DecidableEq, Repr, Inhabited

namespace ClassDeclaration

def parentName? (d : ClassDeclaration) : Option String :=
  d.parent.map Identifier.name

def attributes (d : ClassDeclaration) : List Attribute :=
  d.features.filterMap Feature.asAttribute?

def methods (d : ClassDeclaration) : List Method :=
  d.features.filterMap Feature.asMethod?

/-! ## Building declarations step by step -/

def named (name : String) : ClassDeclaration :=
  { name := { name } }

/-- Adds a parent clause, placed where the declaration is now. -/
def inheriting (d : ClassDeclaration) (parent : String) : ClassDeclaration :=
  { d with parent := some { name := parent, span := d.span } }

/-- Moves the declaration, with its name and its parent clause, to a place in the source.
Features stay where they are. -/
def locatedAt (d : ClassDeclaration) (span : Span) : ClassDeclaration :=
  { d with
    span
    name := { d.name with span }
    parent := d.parent.map fun p => { p with span } }

def withAttribute (d : ClassDeclaration) (name typeName : String) : ClassDeclaration :=
  { d with features := d.features ++ [.ofAttribute { name, typeName, span := d.span }] }

/-- Adds a method after the other features. The formals are pairs of a name and a type, and have
no place in the source. -/
def withMethod (d : ClassDeclaration) (name : String) (formals : List (String × String))
    (returnType : String) : ClassDeclaration :=
  let formals := formals.map fun (name, typeName) => { name, typeName : Formal }
  { d with features := d.features ++ [.ofMethod { name, formals, returnType, span := d.span }] }

def renamed (d : ClassDeclaration) (name : Identifier) : ClassDeclaration :=
  { d with name }

end ClassDeclaration

end CoolHierarchy
