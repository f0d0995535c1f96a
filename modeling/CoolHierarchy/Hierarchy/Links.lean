/-!
# Parent links

A class is its index in the order of registration, and a link leads from a class to its parent. A
class has at most one parent, so everything above a class is one walk, which ends at a class
without a parent or runs into a cycle. All that can be asked about the shape of a hierarchy is
asked here, of the links alone.

A walk is cut after as many steps as there are classes. That is enough to meet every class that
the uncut walk would meet.
-/

namespace CoolHierarchy

/-- The place of a class in the order of registration. -/
abbrev ClassIndex := Nat

structure Links where
  parents : Array (Option ClassIndex)
deriving DecidableEq, Repr, Inhabited

namespace Links

/-- The class that a hierarchy hangs on. -/
def root : ClassIndex := 0

/-- Links between `n` classes of which none has a parent. -/
def unlinked (n : Nat) : Links := ⟨Array.replicate n none⟩

def size (l : Links) : Nat := l.parents.size

def parent? (l : Links) (c : ClassIndex) : Option ClassIndex :=
  l.parents[c]?.join

/-- The direct descendants of a class, in the order of registration. -/
def children (l : Links) (c : ClassIndex) : List ClassIndex :=
  (List.range l.size).filter fun d => l.parent? d == some c

/-- Follows parent links from a possible class, for at most `steps` classes. -/
def walk (l : Links) : (steps : Nat) → Option ClassIndex → List ClassIndex
  | 0, _ => []
  | _ + 1, none => []
  | n + 1, some c => c :: walk l n (l.parent? c)

/-- What lies above a class, nearest first. On a cycle classes repeat. -/
def ancestors (l : Links) (c : ClassIndex) : List ClassIndex :=
  l.walk l.size (l.parent? c)

def lineage (l : Links) (c : ClassIndex) : List ClassIndex :=
  c :: l.ancestors c

/-- A class is rooted when the walk from it comes to the root. -/
def isRooted (l : Links) (c : ClassIndex) : Bool :=
  (l.lineage c).contains root

/-- The items of a list up to, and without, the first one that was there before. -/
def untilRepeat (seen : List ClassIndex) : List ClassIndex → List ClassIndex
  | [] => []
  | c :: rest => if seen.contains c then [] else c :: untilRepeat (c :: seen) rest

/-- The classes above a class without repetition: the walk ends before it comes back to a class
that it has seen, the start included. -/
def superclasses (l : Links) (c : ClassIndex) : List ClassIndex :=
  untilRepeat [c] (l.ancestors c)

/-! ## Links and children -/

theorem lt_size_of_parent? {l : Links} {c p : ClassIndex} (h : l.parent? c = some p) :
    c < l.size := by
  simp only [parent?, Option.join_eq_some_iff] at h
  exact (Array.getElem?_eq_some_iff.1 h).1

/-- Children are what has a class as its parent. -/
@[simp] theorem mem_children {l : Links} {c d : ClassIndex} :
    d ∈ l.children c ↔ l.parent? d = some c := by
  simp only [children, List.mem_filter, List.mem_range, beq_iff_eq]
  exact ⟨fun h => h.2, fun h => ⟨lt_size_of_parent? h, h⟩⟩

theorem length_walk_le (l : Links) (n : Nat) (c : Option ClassIndex) :
    (l.walk n c).length ≤ n := by
  induction n generalizing c with
  | zero => simp [walk]
  | succ n ih =>
    cases c with
    | none => simp [walk]
    | some c => simpa [walk] using ih (l.parent? c)

end Links

end CoolHierarchy
