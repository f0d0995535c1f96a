import CoolHierarchy.Hierarchy.Query

/-!
# Object layouts and dispatch tables

A layout grows along the path from the root to a class. Attributes are appended and keep their
offsets for good. A method gets a slot where its name first occurs; a later method of the same
name takes that slot over. So the layout of a class starts with the layout of its parent.
-/

namespace CoolHierarchy

structure AttributeRow where
  offset : Nat
  name : String
  typeName : String
  definedIn : String
deriving DecidableEq, Repr, Inhabited

structure MethodRow where
  slot : Nat
  name : String
  formals : List Formal
  returnType : String
  definedIn : String
deriving DecidableEq, Repr, Inhabited

/-- The attributes and the dispatch table of the objects of one class. -/
structure Layout where
  className : String
  attributes : List AttributeRow
  methods : List MethodRow
deriving DecidableEq, Repr, Inhabited

namespace Layout

/-- The layout above the root. -/
def empty : Layout := ⟨"", [], []⟩

def appendAttribute (owner : String) (slots : List AttributeRow) (a : Attribute) :
    List AttributeRow :=
  slots ++ [{ offset := slots.length, name := a.name, typeName := a.typeName, definedIn := owner }]

/-- Binds a method to the slot of its name, which is a new one at the end for a new name. -/
def bindMethod (owner : String) (slots : List MethodRow) (m : Method) : List MethodRow :=
  let row (slot : Nat) : MethodRow :=
    { slot, name := m.name, formals := m.formals, returnType := m.returnType, definedIn := owner }
  match slots.findIdx? fun s => s.name == m.name with
  | some i => slots.set i (row i)
  | none => slots ++ [row slots.length]

/-- The layout of a class whose parent has layout `l`. -/
def extend (l : Layout) (d : ClassDeclaration) : Layout :=
  { className := d.name.name
    attributes := d.attributes.foldl (appendAttribute d.name.name) l.attributes
    methods := d.methods.foldl (bindMethod d.name.name) l.methods }

/-- Folds the declarations of a path, from the root down, into a layout. -/
def ofPath (ds : List ClassDeclaration) : Layout :=
  ds.foldl extend empty

/-- The layout of a class, computed along its root path. -/
def compute (g : Hierarchy) (name : String) : Except QueryError Layout := do
  let c ← g.lookup name
  let path ← g.rootPath c
  return ofPath (path.filterMap g.declaration?)

/-- Offset of an attribute. Of several with one name, the last one is seen. -/
def attributeOffset? (l : Layout) (name : String) : Option Nat :=
  (l.attributes.reverse.find? fun a => a.name == name).map AttributeRow.offset

def method? (l : Layout) (name : String) : Option MethodRow :=
  l.methods.find? fun m => m.name == name

end Layout

end CoolHierarchy
