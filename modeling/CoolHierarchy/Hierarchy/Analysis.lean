import CoolHierarchy.Hierarchy.Basic
import CoolHierarchy.Hierarchy.Cycle

/-!
# Linking and checking a hierarchy

An analysis turns a registry into a hierarchy with its parents linked, and lists all that is
wrong with it: what registration refused, then parents that can not be linked in the order of
registration, then cycles, and last a missing entry class. It never fails, and the hierarchy can
be asked whatever errors there are.
-/

namespace CoolHierarchy

/-- The name of the class that a class descends from: what its parent clause says, and the root
without one. The root itself descends from nothing. -/
def ClassDeclaration.effectiveParent? (d : ClassDeclaration) : Option String :=
  match d.parentName? with
  | some parent => some parent
  | none => if d.name.name == rootName then none else some rootName

structure Analysis where
  hierarchy : Hierarchy
  errors : List HierarchyError
deriving DecidableEq, Repr, Inhabited

namespace Registry

/-- Looks up the parent of a class. A sealed or unknown parent gives a fault and no link. -/
def resolveParent (r : Registry) (d : ClassDeclaration) : Except Fault (Option ClassIndex) :=
  match d.effectiveParent? with
  | none => .ok none
  | some parent =>
    if isSealedName parent then .error (.sealedParent d.name.name parent)
    else match r.indexOf? parent with
      | some p => .ok (some p)
      | none => .error (.undeclaredParent d.name.name parent)

def link? (r : Registry) (d : ClassDeclaration) : Option ClassIndex :=
  match r.resolveParent d with
  | .ok parent => parent
  | .error _ => none

def linkError? (r : Registry) (d : ClassDeclaration) : Option HierarchyError :=
  match r.resolveParent d with
  | .ok _ => none
  | .error fault => some { fault, span := d.span }

def links (r : Registry) : Links :=
  ⟨r.classes.map r.link?⟩

/-- The hierarchy with every parent linked that can be. -/
def hierarchy (r : Registry) : Hierarchy :=
  { entryClass := r.entryClass
    hasEntryClass := r.hasEntryClass
    classes := r.classes
    links := r.links }

def linkErrors (r : Registry) : List HierarchyError :=
  r.classes.toList.filterMap r.linkError?

/-- A cycle is blamed on the class that it is entered at. -/
def cycleError (g : Hierarchy) (cycle : List ClassIndex) : HierarchyError :=
  { fault := .inheritanceCycle (cycle.map g.nameOf)
    span := (cycle.head?.bind g.declaration?).elim .origin ClassDeclaration.span }

def cycleErrors (r : Registry) : List HierarchyError :=
  r.hierarchy.links.cycles.map (cycleError r.hierarchy)

def entryErrors (r : Registry) : List HierarchyError :=
  if r.hasEntryClass then [] else [{ fault := .missingEntry r.entryClass }]

def analyze (r : Registry) : Analysis :=
  { hierarchy := r.hierarchy
    errors := r.errors.toList ++ r.linkErrors ++ r.cycleErrors ++ r.entryErrors }

end Registry

namespace Analysis

/-- Registers declarations in order and analyses what was accepted. -/
def build (entryClass : String) (ds : List ClassDeclaration) : Analysis :=
  (Registry.addAll { entryClass } ds).analyze

def hasErrors (a : Analysis) : Bool :=
  !a.errors.isEmpty

def diagnostics (a : Analysis) : List Diagnostic :=
  a.errors.map HierarchyError.toDiagnostic

end Analysis

end CoolHierarchy
