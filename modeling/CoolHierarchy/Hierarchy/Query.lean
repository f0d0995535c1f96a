import CoolHierarchy.Hierarchy.Basic

/-!
# Questions about a hierarchy

Subtyping, least common ancestors and paths, first by index and then by name. Every question has
an answer or a `QueryError` on any hierarchy, also on one whose program has errors.
-/

namespace CoolHierarchy.Hierarchy

/-! ## By index -/

def ancestors (g : Hierarchy) (c : ClassIndex) : List ClassIndex :=
  g.links.ancestors c

def isRooted (g : Hierarchy) (c : ClassIndex) : Bool :=
  g.links.isRooted c

/-- Every class conforms to itself and to the root, even when the walk up from it is broken.
Sealed classes conform to nothing else, and nothing else to them. Otherwise a class conforms to
what lies above it. -/
def conforms (g : Hierarchy) (sub sup : ClassIndex) : Bool :=
  if sub == sup || sup == Links.root then true
  else if g.isSealed sub || g.isSealed sup then false
  else (g.ancestors sub).contains sup

/-- The least class above two classes: the first on the walk from the right one that the walk from
the left one comes to as well. A sealed class meets other classes only at the root. -/
def join (g : Hierarchy) (left right : ClassIndex) : Except QueryError ClassIndex :=
  if left == right then .ok left
  else if g.isSealed left || g.isSealed right then .ok Links.root
  else match (g.links.lineage right).find? (g.links.lineage left).contains with
    | some c => .ok c
    | none => .error (.noCommonAncestor (g.nameOf left) (g.nameOf right))

/-- The classes from the root down to a class, both included: the order in which features are
inherited. -/
def rootPath (g : Hierarchy) (c : ClassIndex) : Except QueryError (List ClassIndex) :=
  if g.isRooted c then .ok (g.links.lineage c).reverse
  else .error (.brokenChain (g.nameOf c))

def acceptsMethods (g : Hierarchy) (c : ClassIndex) : Bool :=
  (g.builtin? c).all Builtin.acceptsMethods

/-! ## By name -/

def lookup (g : Hierarchy) (name : String) : Except QueryError ClassIndex :=
  match g.indexOf? name with
  | some c => .ok c
  | none => .error (.unknownClass name)

def conformsByName (g : Hierarchy) (sub sup : String) : Except QueryError Bool := do
  let sub ← g.lookup sub
  let sup ← g.lookup sup
  return g.conforms sub sup

def joinByName (g : Hierarchy) (left right : String) : Except QueryError String := do
  let left ← g.lookup left
  let right ← g.lookup right
  return g.nameOf (← g.join left right)

/-- Names of the classes above a class, nearest first and each once. -/
def superclassNames (g : Hierarchy) (name : String) : Except QueryError (List String) := do
  let c ← g.lookup name
  return (g.links.superclasses c).map g.nameOf

def rootPathNames (g : Hierarchy) (name : String) : Except QueryError (List String) := do
  let c ← g.lookup name
  return (← g.rootPath c).map g.nameOf

def parentNameOf (g : Hierarchy) (name : String) : Except QueryError (Option String) := do
  let c ← g.lookup name
  return (g.parent? c).map g.nameOf

def childNames (g : Hierarchy) (name : String) : Except QueryError (List String) := do
  let c ← g.lookup name
  return (g.children c).map g.nameOf

end CoolHierarchy.Hierarchy
