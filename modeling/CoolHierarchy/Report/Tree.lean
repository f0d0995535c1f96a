import CoolHierarchy.Hierarchy.Query

/-!
# Printed hierarchies

The tree below the root, a class before its children and children in the order of registration,
two spaces of indent per level. Classes that the root is not above follow in a list of their own.
-/

namespace CoolHierarchy.Hierarchy

/-- A class at a depth below the root. -/
def treeLine (g : Hierarchy) (depth : Nat) (c : ClassIndex) : String :=
  let mark := if g.isSealed c then " (sealed)" else ""
  String.ofList (List.replicate (2 * depth) ' ') ++ g.nameOf c ++ mark ++ "\n"

/-- A class and all below it with their depths, for at most `levels` levels. -/
def subtree (g : Hierarchy) : (levels depth : Nat) → ClassIndex → List (Nat × ClassIndex)
  | 0, _, _ => []
  | n + 1, depth, c => (depth, c) :: (g.children c).flatMap (subtree g n (depth + 1))

/-- The tree below the root. It has no more levels than there are classes. -/
def tree (g : Hierarchy) : List (Nat × ClassIndex) :=
  g.subtree g.size 0 Links.root

/-- The classes that the root is not above. -/
def unrooted (g : Hierarchy) : List ClassIndex :=
  (List.range g.size).filter fun c => !g.isRooted c

/-- A class outside of the tree, with the parent that it asks for. -/
def unrootedLine (g : Hierarchy) (c : ClassIndex) : String :=
  let parent := ((g.declaration? c).bind ClassDeclaration.parentName?).getD rootName
  s!"  {g.nameOf c} (inherits {parent})\n"

def renderHierarchy (g : Hierarchy) : String :=
  let top := String.join (g.tree.map fun (depth, c) => g.treeLine depth c)
  if g.unrooted.isEmpty then top
  else top ++ s!"\nnot reachable from {rootName}:\n" ++ String.join (g.unrooted.map g.unrootedLine)

end CoolHierarchy.Hierarchy
