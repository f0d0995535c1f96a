import CoolHierarchy.Hierarchy.Registry

/-!
# Hierarchies

A hierarchy holds the registered declarations by index together with the links between them. What
a class is (a basic class, sealed, the root) follows from its name and index; what hangs below it
follows from the links.
-/

namespace CoolHierarchy

/-- Classes by index, linked to their parents. -/
structure Hierarchy where
  entryClass : String
  hasEntryClass : Bool
  classes : Array ClassDeclaration
  links : Links
deriving DecidableEq, Repr, Inhabited

namespace Hierarchy

def size (g : Hierarchy) : Nat := g.classes.size

def declaration? (g : Hierarchy) (c : ClassIndex) : Option ClassDeclaration :=
  g.classes[c]?

/-- Name of a class, empty for an index that no class has. -/
def nameOf (g : Hierarchy) (c : ClassIndex) : String :=
  match g.declaration? c with
  | some d => d.name.name
  | none => ""

def names (g : Hierarchy) : List String :=
  g.classes.toList.map fun d => d.name.name

def indexOf? (g : Hierarchy) (name : String) : Option ClassIndex :=
  ClassDeclaration.indexIn? g.classes name

def hasClass (g : Hierarchy) (name : String) : Bool :=
  (g.indexOf? name).isSome

def builtin? (g : Hierarchy) (c : ClassIndex) : Option Builtin :=
  Builtin.ofName? (g.nameOf c)

def isSealed (g : Hierarchy) (c : ClassIndex) : Bool :=
  isSealedName (g.nameOf c)

def parent? (g : Hierarchy) (c : ClassIndex) : Option ClassIndex :=
  g.links.parent? c

def children (g : Hierarchy) (c : ClassIndex) : List ClassIndex :=
  g.links.children c

end Hierarchy

/-- The hierarchy of a registry before any parent is looked up. -/
def Registry.unlinked (r : Registry) : Hierarchy :=
  { entryClass := r.entryClass
    hasEntryClass := r.hasEntryClass
    classes := r.classes
    links := .unlinked r.size }

end CoolHierarchy
