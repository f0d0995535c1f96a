import CoolHierarchy.Layout.Basic

/-!
# Layouts of a whole hierarchy

The layouts of all classes below the root, level by level: each class extends the finished layout
of its parent. Classes that the root is not above get no layout.
-/

namespace CoolHierarchy

/-- Layouts by class, in level order from the root. -/
structure LayoutTable where
  entries : List (ClassIndex × Layout)
deriving DecidableEq, Repr, Inhabited

namespace LayoutTable

/-- The children of a class with their layouts. -/
def extendTo (g : Hierarchy) (entry : ClassIndex × Layout) : List (ClassIndex × Layout) :=
  (g.children entry.1).filterMap fun c => (g.declaration? c).map fun d => (c, entry.2.extend d)

/-- A level and the levels below it, at most `depth` levels. -/
def levels (g : Hierarchy) : (depth : Nat) → List (ClassIndex × Layout) →
    List (ClassIndex × Layout)
  | 0, _ => []
  | _ + 1, [] => []
  | n + 1, level => level ++ levels g n (level.flatMap (extendTo g))

/-- The table of a hierarchy. There are no more levels than classes. -/
def build (g : Hierarchy) : LayoutTable :=
  let top := (g.declaration? Links.root).map fun d => (Links.root, Layout.empty.extend d)
  ⟨levels g g.size top.toList⟩

def layouts (t : LayoutTable) : List Layout :=
  t.entries.map Prod.snd

def order (t : LayoutTable) : List ClassIndex :=
  t.entries.map Prod.fst

def get? (t : LayoutTable) (c : ClassIndex) : Option Layout :=
  (t.entries.find? fun e => e.1 == c).map Prod.snd

def getByName? (t : LayoutTable) (g : Hierarchy) (name : String) : Option Layout := do
  t.get? (← g.indexOf? name)

end LayoutTable

end CoolHierarchy
