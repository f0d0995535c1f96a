import CoolHierarchy.Proofs.LinkTables
import CoolHierarchy.Report.Tree
import Mathlib.Data.List.Perm.Lattice

/-!
# What a printed hierarchy shows

The tree is printed in pre-order (`Hierarchy.PreOrder`): a class, then all below it, then the next
class of its depth. Pre-order meets what the links lead up from, once, at the depth that the number
of links says (`PreOrder.mem_iff`, `PreOrder.nodup`), so below the root it meets the rooted classes.

The tree can also be printed with a stack of classes that wait (`Hierarchy.print?`). The children of
a class are put on it last to first, so the first of them comes next.

* `preOrder_tree`: the tree that is printed is in pre-order.
* `PreOrder.print?_eq`: the stack is worked off in pre-order, in one turn for each class.
* `hierarchy_printed`: a printed hierarchy shows every registered class once.
-/

namespace CoolHierarchy

namespace Hierarchy

/-- The classes `cs`, all at one depth, and those below them in pre-order: each class comes before
what is below it, and that comes before the next one of `cs`. Children are in the order of
registration. -/
inductive PreOrder (g : Hierarchy) :
    (depth : Nat) → (cs : List ClassIndex) → List (Nat × ClassIndex) → Prop
  | nil (depth : Nat) : PreOrder g depth [] []
  | cons {depth : Nat} {c : ClassIndex} {cs : List ClassIndex}
      {below after : List (Nat × ClassIndex)} :
      PreOrder g (depth + 1) (g.children c) below → PreOrder g depth cs after →
      PreOrder g depth (c :: cs) ((depth, c) :: (below ++ after))

variable {g : Hierarchy} {a c : ClassIndex} {cs : List ClassIndex} {depth e k n : Nat}
  {out : List (Nat × ClassIndex)}

/-! ## What pre-order meets -/

/-- One link more leads to a class than to a child of it. -/
theorem climb_succ_iff : g.links.climb (k + 1) a = some c ↔
    ∃ b ∈ g.children c, g.links.climb k a = some b := by
  rw [Links.climb_add, Option.bind_eq_some_iff]
  constructor
  · rintro ⟨b, hb, hc⟩
    obtain ⟨p, hp, hpc⟩ := Option.bind_eq_some_iff.1 hc
    cases hpc
    exact ⟨b, Links.mem_children.2 hp, hb⟩
  · rintro ⟨b, hb, hk⟩
    exact ⟨b, hk, by rw [Links.climb_succ_of_parent? (Links.mem_children.1 hb), Links.climb_zero]⟩

namespace PreOrder

/-- Pre-order meets the classes from which links lead up to one of `cs`, each at the depth that the
number of links says. -/
theorem mem_iff (h : g.PreOrder depth cs out) :
    (e, a) ∈ out ↔ ∃ c ∈ cs, ∃ k, e = depth + k ∧ g.links.climb k a = some c := by
  induction h with
  | nil => simp
  | @cons depth c cs below after _ _ ihbelow ihafter =>
    rw [List.mem_cons, List.mem_append, ihbelow, ihafter]
    constructor
    · rintro (heq | ⟨b, hb, k, rfl, hk⟩ | ⟨c', hc', k, rfl, hk⟩)
      · cases heq
        exact ⟨a, List.mem_cons_self, 0, rfl, rfl⟩
      · exact ⟨c, List.mem_cons_self, k + 1, by omega, climb_succ_iff.2 ⟨b, hb, hk⟩⟩
      · exact ⟨c', List.mem_cons_of_mem c hc', k, rfl, hk⟩
    · rintro ⟨c', hc', k, rfl, hk⟩
      rcases List.mem_cons.1 hc' with rfl | hc'
      · cases k with
        | zero =>
          cases hk
          exact .inl rfl
        | succ k =>
          obtain ⟨b, hb, hk⟩ := climb_succ_iff.1 hk
          exact .inr (.inl ⟨b, hb, k, by omega, hk⟩)
      · exact .inr (.inr ⟨c', hc', k, rfl, hk⟩)

/-- Pre-order meets no class twice at one depth. -/
theorem nodup (h : g.PreOrder depth cs out) (hcs : cs.Nodup) : out.Nodup := by
  induction h with
  | nil => exact List.nodup_nil
  | @cons depth c cs below after hbelow hafter ihbelow ihafter =>
    obtain ⟨hc, hcs⟩ := List.nodup_cons.1 hcs
    have hdisjoint : ∀ x ∈ below, x ∉ after := by
      rintro ⟨e, a⟩ hx hx'
      obtain ⟨b, hb, k, rfl, hk⟩ := hbelow.mem_iff.1 hx
      obtain ⟨c', hc', k', hkk', hk'⟩ := hafter.mem_iff.1 hx'
      -- One link further up than `b` is `c`, and it is `c'` too.
      obtain rfl : k' = k + 1 := by omega
      rw [climb_succ_iff.2 ⟨b, hb, hk⟩] at hk'
      cases hk'
      exact hc hc'
    have hfirst : (depth, c) ∉ below ++ after := by
      intro hmem
      rcases List.mem_append.1 hmem with hmem | hmem
      · obtain ⟨_, _, k, hdepth, _⟩ := hbelow.mem_iff.1 hmem
        omega
      · obtain ⟨c', hc', k, hdepth, hk⟩ := hafter.mem_iff.1 hmem
        obtain rfl : k = 0 := by omega
        cases hk
        exact hc hc'
    exact List.nodup_cons.2 ⟨hfirst, (ihbelow (Links.children_nodup _ c)).append (ihafter hcs)
      hdisjoint⟩

end PreOrder

/-! ## The tree -/

/-- From a level of the tree on, as many levels are enough as there are classes. -/
theorem preOrder_subtree (hg : g.WellFormed) (hn : g.size ≤ depth + n)
    (hcs : ∀ c ∈ cs, c ∈ g.links.level depth) :
    g.PreOrder depth cs (cs.flatMap (g.subtree n depth)) := by
  induction n generalizing depth cs with
  | zero =>
    -- There is no class that deep.
    have hlevel : g.links.level depth = [] :=
      Links.level_eq_nil hg.root_top (hg.size_links ▸ hg.root_lt) (hg.size_links ▸ hn)
    obtain rfl : cs = [] := by
      rw [List.eq_nil_iff_forall_not_mem]
      intro c hc
      have hmem := hcs c hc
      rw [hlevel] at hmem
      exact List.not_mem_nil hmem
    exact .nil depth
  | succ n ih =>
    induction cs with
    | nil => exact .nil depth
    | cons c cs ihcs =>
      have hchildren : ∀ b ∈ g.children c, b ∈ g.links.level (depth + 1) := fun b hb =>
        List.mem_flatMap.2 ⟨c, hcs c List.mem_cons_self, hb⟩
      exact .cons (ih (by omega) hchildren) (ihcs fun b hb => hcs b (List.mem_cons_of_mem c hb))

theorem preOrder_tree (hg : g.WellFormed) : g.PreOrder 0 [Links.root] g.tree := by
  have h := preOrder_subtree hg (Nat.le_add_left g.size 0)
    fun c (hc : c ∈ [Links.root]) => (hc : c ∈ g.links.level 0)
  rwa [List.flatMap_singleton] at h

theorem mem_tree (hg : g.WellFormed) :
    (e, a) ∈ g.tree ↔ g.links.climb e a = some Links.root := by
  rw [(preOrder_tree hg).mem_iff]
  simp

theorem mem_map_snd_tree (hg : g.WellFormed) :
    a ∈ g.tree.map Prod.snd ↔ g.isRooted a = true := by
  rw [isRooted, Links.isRooted_iff, Links.reaches_iff_climb]
  simp [mem_tree hg]

theorem nodup_map_snd_tree (hg : g.WellFormed) : (g.tree.map Prod.snd).Nodup := by
  refine ((preOrder_tree hg).nodup (List.nodup_singleton _)).map_on ?_
  -- The depth of a class is the only number of links that leads from it to the root.
  rintro ⟨e, a⟩ ha ⟨e', a'⟩ ha' (rfl : a = a')
  rw [Links.climb_top_unique ((mem_tree hg).1 ha) ((mem_tree hg).1 ha') hg.root_top]

/-! ## Printing with a stack -/

/-- The lines of classes with their depths, one after the other. -/
def treeText (g : Hierarchy) (out : List (Nat × ClassIndex)) : String :=
  String.join (out.map fun e => g.treeLine e.1 e.2)

/-- Puts classes of one depth on a stack, one after the other. -/
def pushAll (depth : Nat) (cs : List ClassIndex) (waiting : List (Nat × ClassIndex)) :
    List (Nat × ClassIndex) :=
  cs.foldl (fun waiting c => (depth, c) :: waiting) waiting

/-- Prints the class on top of a stack and puts its children there instead, last to first, until the
stack is empty. There is no answer when the stack is not empty after so many turns, or when there is
no class to be printed for an index on it. -/
def print? (g : Hierarchy) :
    (turns : Nat) → (waiting : List (Nat × ClassIndex)) → (written : String) → Option String
  | _, [], written => some written
  | 0, _ :: _, _ => none
  | n + 1, (depth, c) :: waiting, written =>
    if c < g.size then
      print? g n (pushAll (depth + 1) (g.children c).reverse waiting)
        (written ++ g.treeLine depth c)
    else none

theorem pushAll_reverse (depth : Nat) (cs : List ClassIndex) (waiting : List (Nat × ClassIndex)) :
    pushAll depth cs.reverse waiting = cs.map (fun c => (depth, c)) ++ waiting := by
  rw [pushAll, List.foldl_reverse]
  induction cs with
  | nil => rfl
  | cons c cs ih => rw [List.foldr_cons, ih, List.map_cons, List.cons_append]

/-- Classes that lie on top of a stack are printed in pre-order with all below them, in one turn
each, before anything else on the stack. -/
theorem PreOrder.print?_eq (h : g.PreOrder depth cs out) (hout : ∀ e ∈ out, e.2 < g.size)
    (turns : Nat) (waiting : List (Nat × ClassIndex)) (written : String) :
    g.print? turns (cs.map (fun c => (depth, c)) ++ waiting) written =
      if out.length ≤ turns then
        g.print? (turns - out.length) waiting (written ++ g.treeText out)
      else none := by
  induction h generalizing turns waiting written with
  | nil => simp [treeText]
  | @cons depth c cs below after _ _ ihbelow ihafter =>
    simp only [List.mem_cons, List.mem_append] at hout
    cases turns with
    | zero => rfl
    | succ n =>
      have hc : c < g.size := hout (depth, c) (.inl rfl)
      have htext : g.treeText ((depth, c) :: (below ++ after)) =
          g.treeLine depth c ++ (g.treeText below ++ g.treeText after) := by
        simp [treeText]
      rw [List.map_cons, List.cons_append, print?, if_pos hc, pushAll_reverse,
        ihbelow fun e he => hout e (.inr (.inl he)), htext, List.length_cons, List.length_append]
      by_cases hbelow : below.length ≤ n
      · rw [if_pos hbelow, ihafter fun e he => hout e (.inr (.inr he))]
        have hiff : below.length + after.length + 1 ≤ n + 1 ↔ after.length ≤ n - below.length := by
          omega
        have hleft : n + 1 - (below.length + after.length + 1) =
            n - below.length - after.length := by
          omega
        simp only [hiff, hleft, String.append_assoc]
      · rw [if_neg hbelow, if_neg (by omega)]

/-- The printing starts with the root. It comes to an end, after one turn for each rooted class. -/
theorem print?_root (hg : g.WellFormed) (turns : Nat) :
    g.print? turns [(0, Links.root)] "" =
      if g.tree.length ≤ turns then some (g.treeText g.tree) else none := by
  have hout : ∀ e ∈ g.tree, e.2 < g.size := fun e he =>
    hg.lt_size_of_isRooted ((mem_map_snd_tree hg).1 (List.mem_map_of_mem he))
  have h := (preOrder_tree hg).print?_eq hout turns [] ""
  rw [String.empty_append] at h
  refine h.trans ?_
  cases turns - g.tree.length <;> rfl

/-! ## Classes outside of the tree -/

theorem mem_unrooted : c ∈ g.unrooted ↔ c < g.size ∧ g.isRooted c = false := by
  simp [unrooted]

theorem unrooted_pairwise (g : Hierarchy) : g.unrooted.Pairwise (· < ·) :=
  List.pairwise_lt_range.filter _

/-- Every registered class is either in the tree or outside of it. -/
theorem tree_append_unrooted_perm (hg : g.WellFormed) :
    (g.tree.map Prod.snd ++ g.unrooted).Perm (List.range g.size) := by
  have hdisjoint : ∀ c ∈ g.tree.map Prod.snd, c ∉ g.unrooted := by
    intro c hc hc'
    rw [mem_map_snd_tree hg] at hc
    rw [mem_unrooted, hc] at hc'
    exact absurd hc'.2 (by simp)
  have hnodup : (g.tree.map Prod.snd ++ g.unrooted).Nodup :=
    (nodup_map_snd_tree hg).append ((unrooted_pairwise g).imp Nat.ne_of_lt) hdisjoint
  rw [List.perm_ext_iff_of_nodup hnodup List.nodup_range]
  intro c
  rw [List.mem_append, mem_map_snd_tree hg, mem_unrooted, List.mem_range]
  constructor
  · rintro (h | h)
    · exact hg.lt_size_of_isRooted h
    · exact h.1
  · intro hc
    cases hrooted : g.isRooted c with
    | true => exact .inl rfl
    | false => exact .inr ⟨hc, rfl⟩

end Hierarchy

/-- A class that names no parent is linked to the root, so it is rooted. -/
theorem Registry.WellFormed.exists_parentName?_of_not_isRooted {r : Registry} (hr : r.WellFormed)
    {c : ClassIndex} (hc : c < r.hierarchy.size) (h : r.hierarchy.isRooted c = false) :
    ∃ d parent, r.hierarchy.declaration? c = some d ∧ d.parentName? = some parent := by
  obtain ⟨d, hd⟩ := Hierarchy.exists_declaration hc
  cases hparent : d.parentName? with
  | some parent => exact ⟨d, parent, hd, hparent⟩
  | none =>
    have hne : c ≠ Links.root := by
      rintro rfl
      rw [Hierarchy.isRooted, ← Bool.not_eq_true, Links.isRooted_iff] at h
      exact h (.refl _)
    have hroot : r.hierarchy.indexOf? rootName = some Links.root :=
      hr.soundLinks.indexOf?_iff _ _ |>.2 ⟨hr.hierarchy.root_lt, nameOf_root r⟩
    have hlink := hr.parent?_eq_of_declared hd hne
    rw [hparent, Option.getD_none, if_neg (by decide), hroot] at hlink
    rw [Hierarchy.isRooted, ← Bool.not_eq_true, Links.isRooted_iff] at h
    exact absurd (.of_parent? hlink) h

/-! ## The printed text -/

namespace Hierarchy

variable {g : Hierarchy} {c : ClassIndex}

/-- A line for a rooted class: two blanks for each link between the class and the root, the name,
and whether the class is sealed. -/
def IsTreeLine (g : Hierarchy) (c : ClassIndex) (line : String) : Prop :=
  ∃ k path, g.links.climb k c = some Links.root ∧ g.rootPath c = .ok path ∧
    path.length - 1 = k ∧ line = String.ofList (List.replicate (2 * k) ' ') ++ g.nameOf c ++
      (if g.isSealed c then " (sealed)" else "") ++ "\n"

/-- A line for a class outside of the tree: the name, and the name that it declares as its
parent. -/
def IsOutsideLine (g : Hierarchy) (c : ClassIndex) (line : String) : Prop :=
  ∃ d parent, g.declaration? c = some d ∧ d.parentName? = some parent ∧
    line = "  " ++ d.name.name ++ " (inherits " ++ parent ++ ")\n"

theorem isTreeLine_treeLine (hg : g.WellFormed) {depth : Nat} (h : (depth, c) ∈ g.tree) :
    g.IsTreeLine c (g.treeLine depth c) := by
  have hclimb := (mem_tree hg).1 h
  have hrooted : g.isRooted c = true := (mem_map_snd_tree hg).1 (List.mem_map_of_mem h)
  refine ⟨depth, _, hclimb, rootPath_eq_ok_iff.2 ⟨hrooted, rfl⟩, ?_, rfl⟩
  rw [List.length_reverse,
    Links.length_lineage_of_mem_level hg.root_top (Links.mem_level.2 hclimb), Nat.add_sub_cancel]

theorem isOutsideLine_unrootedLine {d : ClassDeclaration} {parent : String}
    (hd : g.declaration? c = some d) (hparent : d.parentName? = some parent) :
    g.IsOutsideLine c (g.unrootedLine c) := by
  refine ⟨d, parent, hd, hparent, ?_⟩
  rw [unrootedLine, nameOf_of_declaration? hd, hd, Option.bind_some, hparent]
  rfl

theorem renderHierarchy_eq (g : Hierarchy) : g.renderHierarchy = g.treeText g.tree ++
    if g.unrooted = [] then ""
    else "\nnot reachable from Object:\n" ++ String.join (g.unrooted.map g.unrootedLine) := by
  rw [renderHierarchy]
  cases g.unrooted with
  | nil => exact (String.append_empty).symm
  | cons c cs => exact String.append_assoc ..

end Hierarchy

/-- The printed hierarchy of any program has a line for every registered class, once. First come the
rooted classes, in pre-order from the root, where the children of a class are the classes linked to
it, in the order of registration, and the sealed classes are those of the basic classes that are
sealed. Printing them with a stack takes one turn for each and ends then, with the same text. The
classes that are not rooted follow in the order of registration under a heading of their own, which
is there only with them, each with the parent that it names; and each of them names one. -/
theorem hierarchy_printed (entryClass : String) (ds : List ClassDeclaration) :
    let g := (Analysis.build entryClass ds).hierarchy
    (∀ p, (g.children p).Pairwise (· < ·) ∧ ∀ c, c ∈ g.children p ↔ g.parent? c = some p) ∧
    (∀ c, g.isSealed c = true ↔ ∃ b : Builtin, b.isSealed = true ∧ c = b.position) ∧
    ∃ entries others treeLines outsideLines,
      g.PreOrder 0 [Links.root] entries ∧
      (∀ c, c ∈ entries.map Prod.snd ↔ g.isRooted c = true) ∧
      (∀ c, c ∈ others ↔ c < g.size ∧ g.isRooted c = false) ∧
      (entries.map Prod.snd ++ others).Perm (List.range g.size) ∧
      others.Pairwise (· < ·) ∧
      List.Forall₂ g.IsTreeLine (entries.map Prod.snd) treeLines ∧
      List.Forall₂ g.IsOutsideLine others outsideLines ∧
      (∀ turns, g.print? turns [(0, Links.root)] "" =
        if entries.length ≤ turns then some (String.join treeLines) else none) ∧
      g.renderHierarchy = String.join treeLines ++
        if others = [] then ""
        else "\nnot reachable from Object:\n" ++ String.join outsideLines := by
  intro g
  have hr : (Registry.addAll { entryClass } ds).WellFormed :=
    Analysis.wellFormed_registry entryClass ds
  have hg : g.WellFormed := hr.hierarchy
  have htree : List.Forall₂ g.IsTreeLine (g.tree.map Prod.snd)
      (g.tree.map fun e => g.treeLine e.1 e.2) := by
    rw [List.forall₂_map_left_iff, List.forall₂_map_right_iff, List.forall₂_same]
    exact fun e he => Hierarchy.isTreeLine_treeLine hg he
  have houtside : List.Forall₂ g.IsOutsideLine g.unrooted (g.unrooted.map g.unrootedLine) := by
    rw [List.forall₂_map_right_iff, List.forall₂_same]
    intro c hc
    obtain ⟨hlt, hbroken⟩ := Hierarchy.mem_unrooted.1 hc
    obtain ⟨d, parent, hd, hparent⟩ := hr.exists_parentName?_of_not_isRooted hlt hbroken
    exact Hierarchy.isOutsideLine_unrootedLine hd hparent
  refine ⟨fun p => ⟨Links.children_pairwise_lt _ p, fun c => Links.mem_children⟩,
    fun c => hr.isSealed_iff, ?_⟩
  exact ⟨g.tree, g.unrooted, _, _, Hierarchy.preOrder_tree hg,
    fun c => Hierarchy.mem_map_snd_tree hg, fun c => Hierarchy.mem_unrooted,
    Hierarchy.tree_append_unrooted_perm hg, Hierarchy.unrooted_pairwise g, htree, houtside,
    Hierarchy.print?_root hg, Hierarchy.renderHierarchy_eq g⟩

/-- `A` and `B` descend from each other. -/
example : (Analysis.build "Main" [.inheriting (.named "A") "B", .inheriting (.named "B") "A",
      .inheriting (.named "Main") "IO"]).hierarchy.renderHierarchy =
    "Object\n  IO\n    Main\n  String (sealed)\n  Int (sealed)\n  Bool (sealed)\n" ++
      "\nnot reachable from Object:\n  A (inherits B)\n  B (inherits A)\n" := by
  decide +kernel

end CoolHierarchy
