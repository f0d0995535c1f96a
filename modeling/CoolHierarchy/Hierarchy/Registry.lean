import CoolHierarchy.Builtin
import CoolHierarchy.Hierarchy.Error
import CoolHierarchy.Hierarchy.Links

/-!
# Registering classes

A registry takes in declarations one by one. It refuses a reserved name and a name that it has
already, notes an error for each refusal, and is otherwise unchanged by it.
-/

namespace CoolHierarchy

def ClassDeclaration.indexIn? (classes : Array ClassDeclaration) (name : String) :
    Option ClassIndex :=
  classes.findIdx? fun d => d.name.name == name

/-- Name of the class that a program starts in, unless it is told otherwise. -/
def defaultEntryClass : String := "Main"

/-- The declarations accepted so far, and the errors made on the way. -/
structure Registry where
  entryClass : String := defaultEntryClass
  accepted : Array ClassDeclaration := #[]
  errors : Array HierarchyError := #[]
deriving DecidableEq, Repr, Inhabited

namespace Registry

/-- All classes by index: the basic ones, then the accepted ones in the order they came in. -/
def classes (r : Registry) : Array ClassDeclaration :=
  (Builtin.all.map Builtin.declaration).toArray ++ r.accepted

def size (r : Registry) : Nat := r.classes.size

def indexOf? (r : Registry) (name : String) : Option ClassIndex :=
  ClassDeclaration.indexIn? r.classes name

def hasClass (r : Registry) (name : String) : Bool :=
  (r.indexOf? name).isSome

/-- Whether an accepted declaration bears the name of the entry class. A basic class is never
declared, so it does not count. -/
def hasEntryClass (r : Registry) : Bool :=
  r.accepted.any fun d => d.name.name == r.entryClass

def refusal? (r : Registry) (d : ClassDeclaration) : Option Fault :=
  if isReservedName d.name.name then some (.reservedName d.name.name)
  else if r.hasClass d.name.name then some (.duplicateClass d.name.name)
  else none

/-- Takes in a declaration. An accepted one gets the next free index. -/
def add (r : Registry) (d : ClassDeclaration) : Registry × Option ClassIndex :=
  match r.refusal? d with
  | some fault => ({ r with errors := r.errors.push { fault, span := d.span } }, none)
  | none => ({ r with accepted := r.accepted.push d }, some r.size)

def addAll (r : Registry) (ds : List ClassDeclaration) : Registry :=
  ds.foldl (fun r d => (r.add d).1) r

/-! ## What taking in a declaration does -/

theorem size_eq (r : Registry) : r.size = Builtin.all.length + r.accepted.size := by
  simp [size, classes]

theorem add_of_refusal {r : Registry} {d : ClassDeclaration} {fault : Fault}
    (h : r.refusal? d = some fault) :
    r.add d = ({ r with errors := r.errors.push { fault, span := d.span } }, none) := by
  rw [add, h]

theorem add_of_no_refusal {r : Registry} {d : ClassDeclaration} (h : r.refusal? d = none) :
    r.add d = ({ r with accepted := r.accepted.push d }, some r.size) := by
  rw [add, h]

@[simp] theorem entryClass_add (r : Registry) (d : ClassDeclaration) :
    (r.add d).1.entryClass = r.entryClass := by
  cases h : r.refusal? d with
  | none => rw [add_of_no_refusal h]
  | some fault => rw [add_of_refusal h]

/-- Taking in a declaration adds a class or an error, and never both. -/
theorem size_add (r : Registry) (d : ClassDeclaration) :
    (r.add d).1.size + (r.add d).1.errors.size = r.size + r.errors.size + 1 := by
  cases h : r.refusal? d with
  | none =>
    rw [add_of_no_refusal h]
    simp only [size_eq, Array.size_push]
    omega
  | some fault =>
    rw [add_of_refusal h]
    simp only [size_eq, Array.size_push]
    omega

end Registry

end CoolHierarchy
