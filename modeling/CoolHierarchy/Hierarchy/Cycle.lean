import CoolHierarchy.Hierarchy.Links

/-!
# Inheritance cycles

The walk from a class enters a cycle at the first class that it meets twice. Going through the
classes in the order of registration, a cycle is reported when a walk first enters it, as the list
of its members from the point of entry on. Walks that enter a cycle that is known already add
nothing, so each cycle is reported once, however many classes lead into it.
-/

namespace CoolHierarchy.Links

/-- The first item of a list that was there before. -/
def firstRepeat? (seen : List ClassIndex) : List ClassIndex → Option ClassIndex
  | [] => none
  | c :: rest => if seen.contains c then some c else firstRepeat? (c :: seen) rest

/-- The member of a cycle that the walk from a class meets first. -/
def entrance? (l : Links) (c : ClassIndex) : Option ClassIndex :=
  firstRepeat? [] (l.lineage c)

/-- The members of the cycle through a class, starting with it. -/
def cycleFrom (l : Links) (c : ClassIndex) : List ClassIndex :=
  c :: l.superclasses c

/-- Adds the cycle that the walk from a class enters, if it is a new one. -/
def noteCycle (l : Links) (known : List (List ClassIndex)) (c : ClassIndex) : List (List ClassIndex) :=
  match l.entrance? c with
  | none => known
  | some e => if known.any (·.contains e) then known else known ++ [l.cycleFrom e]

/-- All cycles, each with its members in parent-link order. -/
def cycles (l : Links) : List (List ClassIndex) :=
  (List.range l.size).foldl l.noteCycle []

end CoolHierarchy.Links
