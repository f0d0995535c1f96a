import CoolHierarchy.Proofs.Conformance
import CoolHierarchy.Proofs.Marks

/-!
# Joins of rooted classes

Among rooted classes every join is there and is rooted again, so classes can be joined one after
another, in any order and with any brackets (`JoinTree`). What comes out is the least class above
all of them (`Links.LeastAbove`), which is where their paths from the root part.

* `join_rooted`: the join of any number of rooted classes.
-/

namespace CoolHierarchy

/-- `p` begins all of the lists, and whatever begins all of them begins `p`. -/
structure LongestCommonPrefix (p : List ClassIndex) (lists : List (List ClassIndex)) : Prop where
  isPrefix : ∀ xs ∈ lists, p <+: xs
  longest : ∀ q, (∀ xs ∈ lists, q <+: xs) → q <+: p

/-- Classes to be joined two at a time, with brackets that tell in which order. -/
inductive JoinTree where
  | leaf (c : ClassIndex)
  | node (left right : JoinTree)
deriving DecidableEq, Repr

namespace JoinTree

def leaves : JoinTree → List ClassIndex
  | leaf c => [c]
  | node left right => left.leaves ++ right.leaves

def eval (g : Hierarchy) : JoinTree → Except QueryError ClassIndex
  | leaf c => .ok c
  | node left right => do g.join (← left.eval g) (← right.eval g)

/-- Joins classes to a tree one after another. -/
def extend (t : JoinTree) (cs : List ClassIndex) : JoinTree :=
  cs.foldl (fun t c => node t (leaf c)) t

theorem leaves_extend (t : JoinTree) (cs : List ClassIndex) :
    (t.extend cs).leaves = t.leaves ++ cs := by
  induction cs generalizing t with
  | nil => exact (List.append_nil _).symm
  | cons c cs ih =>
    show ((node t (leaf c)).extend cs).leaves = _
    rw [ih, leaves, leaves, List.append_assoc, List.singleton_append]

theorem eval_extend (g : Hierarchy) (t : JoinTree) (cs : List ClassIndex) :
    (t.extend cs).eval g = t.eval g >>= fun c => cs.foldlM g.join c := by
  induction cs generalizing t with
  | nil => exact (bind_pure (t.eval g)).symm
  | cons c cs ih =>
    show ((node t (leaf c)).extend cs).eval g = _
    rw [ih, eval]
    cases t.eval g with
    | error e => rfl
    | ok d => rfl

end JoinTree

namespace Links

variable {l : Links} {a b c j k m t : ClassIndex} {cs ds xs : List ClassIndex}

/-- `l.LeastAbove cs j`: `j` is above all of `cs`, and all else that is above them is above `j`. -/
structure LeastAbove (l : Links) (cs : List ClassIndex) (j : ClassIndex) : Prop where
  above : ∀ c ∈ cs, l.Reaches c j
  least : ∀ a, (∀ c ∈ cs, l.Reaches c a) → l.Reaches j a

namespace LeastAbove

theorem singleton (c : ClassIndex) : l.LeastAbove [c] c where
  above d hd := by
    rw [List.mem_singleton.1 hd]
    exact .refl c
  least _ ha := ha c (List.mem_singleton_self c)

/-- The least class above two groups of classes is the one above what is above each group. -/
theorem append (hj : l.LeastAbove cs j) (hk : l.LeastAbove ds k) (hm : l.LeastCommon j k m) :
    l.LeastAbove (cs ++ ds) m where
  above c hc := by
    rcases List.mem_append.1 hc with hc | hc
    · exact (hj.above c hc).trans hm.left
    · exact (hk.above c hc).trans hm.right
  least a ha := by
    have hja : l.Reaches j a := hj.least a fun c hc => ha c (List.mem_append_left ds hc)
    have hka : l.Reaches k a := hk.least a fun c hc => ha c (List.mem_append_right cs hc)
    exact hm.least a hja hka

/-- Order and repetition of the classes play no part. -/
theorem congr (h : l.LeastAbove cs j) (hmem : ∀ c, c ∈ cs ↔ c ∈ ds) : l.LeastAbove ds j where
  above c hc := h.above c ((hmem c).2 hc)
  least a ha := h.least a fun c hc => ha c ((hmem c).1 hc)

/-- Off the cycles there is one such class only. -/
theorem unique (hj : l.LeastAbove cs j) (hk : l.LeastAbove cs k) (hjt : l.Reaches j t)
    (htop : l.parent? t = none) : j = k := by
  have hjk : l.Reaches j k := hj.least k hk.above
  have hkj : l.Reaches k j := hk.least j hj.above
  rcases hjk.eq_or_below with heq | ⟨p, hp, hpk⟩
  · exact heq.symm
  · have hcycle : l.OnCycle j := ⟨p, hp, hpk.trans hkj⟩
    exact absurd hjt (hcycle.not_reaches_top htop)

end LeastAbove

theorem LeastCommon.leastAbove (h : l.LeastCommon a b j) : l.LeastAbove [a, b] j :=
  (LeastAbove.singleton a).append (.singleton b) h

/-! ## Paths to a class without a parent -/

/-- The walk from a class ends like the walk from a class above it. -/
theorem lineage_suffix_of_reaches (hct : l.Reaches c t) (htop : l.parent? t = none)
    (hca : l.Reaches c a) : l.lineage a <:+ l.lineage c := by
  induction hca with
  | refl c => exact List.suffix_rfl
  | @step c p a hp hpa ih =>
    have hpt : l.Reaches p t := (Reaches.of_parent? hp).reaches_top hct htop
    rw [lineage_of_parent? hp hpt htop]
    exact (ih hpt).trans (List.suffix_cons c _)

/-- Whatever a walk ends with is the walk from one of its classes. -/
theorem exists_eq_lineage_of_suffix (hct : l.Reaches c t) (htop : l.parent? t = none)
    (hxs : xs <:+ l.lineage c) (hne : xs ≠ []) : ∃ a, l.Reaches c a ∧ xs = l.lineage a := by
  induction hct with
  | refl t =>
    rw [lineage_of_top htop] at hxs
    rcases List.suffix_cons_iff.1 hxs with heq | hxs
    · exact ⟨t, .refl t, heq.trans (lineage_of_top htop).symm⟩
    · exact absurd (List.suffix_nil.1 hxs) hne
  | @step c p t hp hpt ih =>
    rw [lineage_of_parent? hp hpt htop] at hxs
    rcases List.suffix_cons_iff.1 hxs with heq | hxs
    · exact ⟨c, .refl c, heq.trans (lineage_of_parent? hp hpt htop).symm⟩
    · obtain ⟨a, hpa, heq⟩ := ih htop hxs
      exact ⟨a, .step hp hpa, heq⟩

/-- Paths from the top part at the least class above their ends. -/
theorem LeastAbove.longestCommonPrefix (h : l.LeastAbove cs j) (hne : cs ≠ [])
    (hcs : ∀ c ∈ cs, l.Reaches c t) (htop : l.parent? t = none) :
    LongestCommonPrefix (l.lineage j).reverse (cs.map fun c => (l.lineage c).reverse) where
  isPrefix xs hxs := by
    obtain ⟨c, hc, rfl⟩ := List.mem_map.1 hxs
    rw [List.reverse_prefix]
    exact lineage_suffix_of_reaches (hcs c hc) htop (h.above c hc)
  longest q hq := by
    have hsuffix : ∀ c ∈ cs, q.reverse <:+ l.lineage c := by
      intro c hc
      rw [← List.reverse_prefix, List.reverse_reverse]
      exact hq _ (List.mem_map_of_mem hc)
    by_cases hnil : q.reverse = []
    · rw [List.reverse_eq_nil_iff.1 hnil]
      exact List.nil_prefix
    · -- What is not empty and ends the walk from one of the classes is the walk from some class
      -- `a`, and since it ends the walks from the others too, `a` is above all of them.
      obtain ⟨d, hd⟩ := List.exists_mem_of_ne_nil cs hne
      obtain ⟨a, -, heq⟩ := exists_eq_lineage_of_suffix (hcs d hd) htop (hsuffix d hd) hnil
      have habove : ∀ c ∈ cs, l.Reaches c a := by
        intro c hc
        have hmem : a ∈ q.reverse := heq ▸ List.mem_cons_self
        exact mem_lineage.1 ((hsuffix c hc).subset hmem)
      have hjt : l.Reaches j t := (h.above d hd).reaches_top (hcs d hd) htop
      have hja := lineage_suffix_of_reaches hjt htop (h.least a habove)
      rw [← heq, ← List.reverse_prefix, List.reverse_reverse] at hja
      exact hja

end Links

namespace Hierarchy

variable {g : Hierarchy} {c j l r : ClassIndex} {cs : List ClassIndex} {t : JoinTree}

/-- Marks the classes on the walk from a class. -/
def walkMarks (g : Hierarchy) (c : ClassIndex) : Array Bool :=
  (g.links.lineage c).foldl (fun marks c => marks.setIfInBounds c true)
    (Array.replicate g.size false)

/-- The join without its shortcuts: the classes on the walk from the left are marked, and the walk
from the right stops at the first mark. -/
def joinMarked (g : Hierarchy) (left right : ClassIndex) : Except QueryError ClassIndex :=
  match (g.links.lineage right).find? fun c => (g.walkMarks left)[c]? == some true with
  | some c => .ok c
  | none => .error (.noCommonAncestor (g.nameOf left) (g.nameOf right))

theorem mapM_rootPath_of_rooted (h : ∀ c ∈ cs, g.isRooted c = true) :
    cs.mapM g.rootPath = .ok (cs.map fun c => (g.links.lineage c).reverse) := by
  induction cs with
  | nil => rfl
  | cons c cs ih =>
    obtain ⟨hc, hcs⟩ := List.forall_mem_cons.1 h
    rw [List.mapM_cons, rootPath_eq_ok_iff.2 ⟨hc, rfl⟩, ih hcs]
    rfl

namespace WellFormed

/-- The join of rooted classes is the least class above them, also where one of them is sealed. -/
theorem exists_leastCommon_of_rooted (hg : g.WellFormed) (hl : g.isRooted l = true)
    (hr : g.isRooted r = true) : ∃ j, g.join l r = .ok j ∧ g.links.LeastCommon l r j := by
  obtain ⟨j, hj⟩ := exists_join_of_rooted hl hr
  refine ⟨j, hj, ?_⟩
  rcases eq_root_or_leastCommon_of_join hj with ⟨hlr, hsealed | hsealed, rfl⟩ | ⟨_, hleast⟩
  · refine ⟨Links.isRooted_iff.1 hl, Links.isRooted_iff.1 hr, fun c hlc hrc => ?_⟩
    rw [hg.eq_root_of_sealed hsealed hlr hlc hrc]
    exact .refl _
  · refine ⟨Links.isRooted_iff.1 hl, Links.isRooted_iff.1 hr, fun c hlc hrc => ?_⟩
    rw [hg.eq_root_of_sealed hsealed (Ne.symm hlr) hrc hlc]
    exact .refl _
  · exact hleast

/-- What is above a rooted class is rooted. -/
theorem isRooted_of_reaches (hg : g.WellFormed) (hc : g.isRooted c = true)
    (h : g.links.Reaches c j) : g.isRooted j = true :=
  Links.isRooted_iff.2 (h.reaches_top (Links.isRooted_iff.1 hc) hg.root_top)

theorem marks_walkMarks (hg : g.WellFormed) (hc : c < g.size) :
    Marks (g.walkMarks c) g.size (· ∈ g.links.lineage c) := by
  have hlt : ∀ a ∈ g.links.lineage c, a < g.size := fun a ha =>
    hg.lt_size_of_reaches hc (Links.mem_lineage.1 ha)
  exact ((Marks.replicate g.size).foldl_mark hlt).congr fun a => by rw [false_or]

/-- Looking for the first mark is looking for the first class that the marked walk has. -/
theorem joinMarked_eq (hg : g.WellFormed) (hl : l < g.size) (r : ClassIndex) :
    g.joinMarked l r =
      match (g.links.lineage r).find? (g.links.lineage l).contains with
      | some c => .ok c
      | none => .error (.noCommonAncestor (g.nameOf l) (g.nameOf r)) := by
  have hmarked : (fun c => (g.walkMarks l)[c]? == some true) = (g.links.lineage l).contains := by
    funext c
    rw [Bool.eq_iff_iff, beq_iff_eq, (hg.marks_walkMarks hl).marked_iff, List.contains_iff_mem]
  unfold joinMarked
  rw [hmarked]

/-- Where the walk from a rooted class is marked, the walk from another one stops at the least
class above both. -/
theorem exists_leastCommon_joinMarked (hg : g.WellFormed) (hl : g.isRooted l = true)
    (hr : g.isRooted r = true) :
    ∃ j, g.joinMarked l r = .ok j ∧ g.links.LeastCommon l r j := by
  rw [hg.joinMarked_eq (hg.lt_size_of_isRooted hl)]
  cases hj : (g.links.lineage r).find? (g.links.lineage l).contains with
  | some j => exact ⟨j, rfl, Links.leastCommon_of_find? hj⟩
  | none =>
    have hnone := Links.not_reaches_of_find?_eq_none hj
    exact absurd ⟨Links.root, Links.isRooted_iff.1 hl, Links.isRooted_iff.1 hr⟩ hnone

/-- On rooted classes the shortcuts give what the walks would give. -/
theorem join_eq_joinMarked (hg : g.WellFormed) (hl : g.isRooted l = true)
    (hr : g.isRooted r = true) : g.join l r = g.joinMarked l r := by
  obtain ⟨j, hj, hleast⟩ := hg.exists_leastCommon_of_rooted hl hr
  obtain ⟨k, hk, hleast'⟩ := hg.exists_leastCommon_joinMarked hl hr
  have hjroot : g.links.Reaches j Links.root :=
    Links.isRooted_iff.1 (hg.isRooted_of_reaches hl hleast.left)
  rw [hj, hk, hleast.leastAbove.unique hleast'.leastAbove hjroot hg.root_top]

/-- Rooted classes can be joined with any brackets. -/
theorem exists_eval_of_rooted (hg : g.WellFormed) (t : JoinTree)
    (ht : ∀ c ∈ t.leaves, g.isRooted c = true) :
    ∃ j, t.eval g = .ok j ∧ g.isRooted j = true ∧ g.links.LeastAbove t.leaves j := by
  induction t with
  | leaf c => exact ⟨c, rfl, ht c (List.mem_singleton_self c), .singleton c⟩
  | node left right ihl ihr =>
    obtain ⟨j, hj, hjroot, hleft⟩ := ihl fun c hc => ht c (List.mem_append_left _ hc)
    obtain ⟨k, hk, hkroot, hright⟩ := ihr fun c hc => ht c (List.mem_append_right _ hc)
    obtain ⟨m, hm, hleast⟩ := hg.exists_leastCommon_of_rooted hjroot hkroot
    refine ⟨m, ?_, hg.isRooted_of_reaches hjroot hleast.left, hleft.append hright hleast⟩
    rw [JoinTree.eval, hj, hk]
    exact hm

/-- Rooted classes have the same join in any order, with any brackets, and also when some of them
are repeated. -/
theorem eval_eq_of_mem_iff (hg : g.WellFormed) {t t' : JoinTree}
    (ht : ∀ c ∈ t.leaves, g.isRooted c = true) (hmem : ∀ c, c ∈ t'.leaves ↔ c ∈ t.leaves) :
    t'.eval g = t.eval g := by
  obtain ⟨j, hj, hjroot, hleast⟩ := hg.exists_eval_of_rooted t ht
  obtain ⟨k, hk, -, hleast'⟩ := hg.exists_eval_of_rooted t' fun c hc => ht c ((hmem c).1 hc)
  rw [hj, hk, hleast.unique (hleast'.congr hmem) (Links.isRooted_iff.1 hjroot) hg.root_top]

end WellFormed

end Hierarchy

/-- On the hierarchy of any program rooted classes can be joined one after another, and what comes
out is the last class of the longest common prefix of their paths from the root. Any order, any
brackets and any repetition of the classes give the same class. On two rooted classes the shortcuts
of the join give what the walks give. -/
theorem join_rooted (entryClass : String) (ds : List ClassDeclaration) :
    let g := (Analysis.build entryClass ds).hierarchy
    (∀ c cs, (∀ x ∈ c :: cs, g.isRooted x = true) →
      ∃ j paths p, cs.foldlM g.join c = .ok j ∧ (c :: cs).mapM g.rootPath = .ok paths ∧
        LongestCommonPrefix p paths ∧ p.getLast? = some j ∧
        (∀ t : JoinTree, (∀ x, x ∈ t.leaves ↔ x ∈ c :: cs) → t.eval g = .ok j) ∧
        (∀ d ds', (∀ x, x ∈ d :: ds' ↔ x ∈ c :: cs) → ds'.foldlM g.join d = .ok j)) ∧
    (∀ l r, g.isRooted l = true → g.isRooted r = true → g.join l r = g.joinMarked l r) := by
  intro g
  have hg : g.WellFormed := Analysis.wellFormed_build entryClass ds
  refine ⟨?_, fun l r => hg.join_eq_joinMarked⟩
  intro c cs hcs
  have hfold : ∀ d ds', ((JoinTree.leaf d).extend ds').eval g = ds'.foldlM g.join d :=
    fun d ds' => JoinTree.eval_extend g (.leaf d) ds'
  have hleaves : ∀ d ds', ((JoinTree.leaf d).extend ds').leaves = d :: ds' :=
    fun d ds' => JoinTree.leaves_extend (.leaf d) ds'
  have hrooted : ∀ x ∈ ((JoinTree.leaf c).extend cs).leaves, g.isRooted x = true := by
    rw [hleaves]
    exact hcs
  obtain ⟨j, hj, -, hleast⟩ := hg.exists_eval_of_rooted _ hrooted
  have hsame : ∀ t : JoinTree, (∀ x, x ∈ t.leaves ↔ x ∈ c :: cs) → t.eval g = .ok j := by
    intro t ht
    rw [← hleaves c cs] at ht
    rw [hg.eval_eq_of_mem_iff hrooted ht, hj]
  rw [hleaves] at hleast
  refine ⟨j, _, (g.links.lineage j).reverse, hfold c cs ▸ hj,
    Hierarchy.mapM_rootPath_of_rooted hcs, ?_, ?_, hsame, ?_⟩
  · exact hleast.longestCommonPrefix (List.cons_ne_nil c cs)
      (fun x hx => Links.isRooted_iff.1 (hcs x hx)) hg.root_top
  · rw [List.getLast?_reverse]
    rfl
  · intro d ds' hmem
    rw [← hfold]
    exact hsame _ (hleaves d ds' ▸ hmem)

/-- Two branches below `A`, one of them with two classes. -/
def branchingProgram : List ClassDeclaration :=
  [.named "A", .inheriting (.named "B") "A", .inheriting (.named "C") "B",
    .inheriting (.named "D") "B", .inheriting (.named "E") "A"]

/-- `C`, `D` and `E` meet in `A`, also when `D` and `E` are joined first. With the sealed `Int` they
meet in `Object` only. -/
theorem join_rooted_branchingProgram :
    let g := (Analysis.build "Main" branchingProgram).hierarchy
    (∀ x ∈ [7, 8, 9], g.isRooted x = true) ∧ [8, 9].foldlM g.join 7 = .ok 5 ∧
      (JoinTree.node (.leaf 7) (.node (.leaf 9) (.node (.leaf 8) (.leaf 9)))).eval g = .ok 5 ∧
      g.isSealed 2 = true ∧ g.joinMarked 5 2 = .ok Links.root := by
  intro g
  have hrooted : ∀ x ∈ [7, 8, 9], g.isRooted x = true := by decide +kernel
  have hjoin : [8, 9].foldlM g.join 7 = .ok 5 := by decide +kernel
  obtain ⟨hfold, hshort⟩ := join_rooted "Main" branchingProgram
  obtain ⟨j, _, _, hj, _, _, _, htree, _⟩ := hfold 7 [8, 9] hrooted
  have hj5 : j = 5 := Except.ok.inj (hj.symm.trans hjoin)
  subst hj5
  have hleaves : ∀ x, x ∈ [7, 9, 8, 9] ↔ x ∈ [7, 8, 9] := fun x => by simp; omega
  have hbrackets := htree (.node (.leaf 7) (.node (.leaf 9) (.node (.leaf 8) (.leaf 9)))) hleaves
  have hint := hshort 5 2 (by decide +kernel) (by decide +kernel)
  exact ⟨hrooted, hjoin, hbrackets, by decide +kernel, hint.symm.trans (by decide +kernel)⟩

end CoolHierarchy
