import CoolHierarchy.Proofs.Renumbering

/-!
# Hierarchies with more classes

A hierarchy may be extended by classes that no earlier class descends from. All walks are cut later
then, which shows in a walk that goes round a cycle and in no answer: a class that is met is met
before the earlier cut (`prefix_lineage`), and a walk that comes to an end has come to it
(`lineage_of_top`).
-/

namespace CoolHierarchy

/-! ## Links -/

/-- The links of `l` are those of the first classes of `l'`, and lead to no other class. -/
structure Links.Extends (l l' : Links) : Prop where
  size_le : l.size ≤ l'.size
  parent? : ∀ {c}, c < l.size → l'.parent? c = l.parent? c
  parent_lt : ∀ {c p}, l.parent? c = some p → p < l.size

namespace Links

variable {l l' : Links} {a b c e t : ClassIndex} {seen xs ys : List ClassIndex}

/-- An item that repeats is seen in whatever goes on after it. -/
theorem firstRepeat?_append (h : firstRepeat? seen xs = some a) (ys : List ClassIndex) :
    firstRepeat? seen (xs ++ ys) = some a := by
  induction xs generalizing seen with
  | nil => cases h
  | cons x xs ih =>
    rw [firstRepeat?] at h
    rw [List.cons_append, firstRepeat?]
    split at h
    · next hx => rw [if_pos hx, h]
    · next hx => rw [if_neg hx, ih h]

/-- What goes on after an item that repeats is cut off. -/
theorem untilRepeat_append (h : firstRepeat? seen xs = some a) (ys : List ClassIndex) :
    untilRepeat seen (xs ++ ys) = untilRepeat seen xs := by
  induction xs generalizing seen with
  | nil => cases h
  | cons x xs ih =>
    rw [firstRepeat?] at h
    rw [List.cons_append, untilRepeat, untilRepeat]
    split at h
    · next hx => rw [if_pos hx, if_pos hx]
    · next hx => rw [if_neg hx, if_neg hx, ih h]

theorem entrance?_eq (l : Links) (c : ClassIndex) :
    l.entrance? c = firstRepeat? [c] (l.ancestors c) := by
  rw [entrance?, lineage, firstRepeat?, if_neg (by simp)]

namespace Extends

variable (h : l.Extends l')
include h

theorem climb (hc : c < l.size) (n : Nat) : l'.climb n c = l.climb n c := by
  induction n generalizing c with
  | zero => rfl
  | succ n ih =>
    have hparent := h.parent? hc
    cases hp : l.parent? c with
    | none =>
      rw [hp] at hparent
      rw [climb_succ_of_top hparent, climb_succ_of_top hp]
    | some p =>
      rw [hp] at hparent
      rw [climb_succ_of_parent? hparent, climb_succ_of_parent? hp, ih (h.parent_lt hp)]

theorem reaches_iff (hc : c < l.size) : l'.Reaches c a ↔ l.Reaches c a := by
  simp only [reaches_iff_climb, h.climb hc]

theorem below_iff (hc : c < l.size) : l'.Below c a ↔ l.Below c a := by
  simp only [below_iff_climb, h.climb hc]

/-- A later cut leaves what a walk meets first as it was. -/
theorem prefix_lineage (hc : c < l.size) : l.lineage c <+: l'.lineage c := by
  have htake : (l'.lineage c).take (l.size + 1) = l.lineage c := by
    apply List.ext_getElem?
    intro i
    rw [List.getElem?_take, getElem?_lineage, getElem?_lineage, h.climb hc]
    have hle := h.size_le
    by_cases hi : i ≤ l.size
    · rw [if_pos (Nat.lt_succ_of_le hi), if_pos (Nat.le_trans hi hle), if_pos hi]
    · rw [if_neg (fun hlt => hi (Nat.le_of_lt_succ hlt)), if_neg hi]
  exact htake ▸ List.take_prefix _ _

theorem exists_ancestors_eq (hc : c < l.size) :
    ∃ rest, l'.ancestors c = l.ancestors c ++ rest := by
  obtain ⟨rest, hrest⟩ := h.prefix_lineage hc
  exact ⟨rest, (List.cons.inj hrest).2.symm⟩

/-- A walk that comes to a class without a parent ends there, wherever it is cut. -/
theorem lineage_of_top (hc : c < l.size) (hct : l.Reaches c t) (htop : l.parent? t = none) :
    l'.lineage c = l.lineage c := by
  apply List.ext_getElem?
  intro i
  rw [getElem?_lineage, getElem?_lineage, h.climb hc]
  have hle := h.size_le
  by_cases hi : i ≤ l.size
  · rw [if_pos (Nat.le_trans hi hle), if_pos hi]
  · rw [climb_eq_none_of_size_lt hct htop (Nat.lt_of_not_le hi), if_neg hi, ite_self]

theorem isRooted (hc : c < l.size) : l'.isRooted c = l.isRooted c := by
  rw [Bool.eq_iff_iff, isRooted_iff, isRooted_iff, h.reaches_iff hc]

/-- The first class on one walk that is also on another is met before either cut. -/
theorem find?_lineage (ha : a < l.size) (hb : b < l.size) :
    (l'.lineage b).find? (l'.lineage a).contains = (l.lineage b).find? (l.lineage a).contains := by
  have hmem : ∀ {c x}, c < l.size → (x ∈ l'.lineage c ↔ x ∈ l.lineage c) := by
    intro c x hc
    rw [mem_lineage, mem_lineage, h.reaches_iff hc]
  have hcontains : (l'.lineage a).contains = (l.lineage a).contains := by
    funext x
    rw [Bool.eq_iff_iff, List.contains_iff_mem, List.contains_iff_mem, hmem ha]
  rw [hcontains]
  cases hfind : (l.lineage b).find? (l.lineage a).contains with
  | some x =>
    obtain ⟨rest, hrest⟩ := h.prefix_lineage hb
    rw [← hrest, List.find?_append, hfind]
    rfl
  | none =>
    rw [List.find?_eq_none] at hfind ⊢
    exact fun x hx => hfind x ((hmem hb).1 hx)

/-- Where a walk enters a cycle does not depend on the cut. -/
theorem entrance?_congr (hc : c < l.size) : l'.entrance? c = l.entrance? c := by
  cases he : l.entrance? c with
  | none =>
    obtain ⟨t, ht, htop⟩ := exists_top_of_entrance?_eq_none he
    rw [← he, entrance?, entrance?, h.lineage_of_top hc ht htop]
  | some e =>
    obtain ⟨rest, hrest⟩ := h.prefix_lineage hc
    rw [entrance?, ← hrest]
    exact firstRepeat?_append he rest

/-- What is above a class is met before the walk repeats itself or ends, so before the cut. -/
theorem superclasses (hc : c < l.size) : l'.superclasses c = l.superclasses c := by
  cases he : l.entrance? c with
  | none =>
    obtain ⟨t, ht, htop⟩ := exists_top_of_entrance?_eq_none he
    have hancestors : l'.ancestors c = l.ancestors c :=
      (List.cons.inj (h.lineage_of_top hc ht htop)).2
    rw [Links.superclasses, Links.superclasses, hancestors]
  | some e =>
    rw [entrance?_eq] at he
    obtain ⟨rest, hrest⟩ := h.exists_ancestors_eq hc
    rw [Links.superclasses, hrest, untilRepeat_append he]
    rfl

theorem cycleFrom (hc : c < l.size) : l'.cycleFrom c = l.cycleFrom c := by
  rw [Links.cycleFrom, Links.cycleFrom, h.superclasses hc]

/-- The search does with an earlier class what it did. -/
theorem noteCycle (hc : c < l.size) (known : List (List ClassIndex)) :
    l'.noteCycle known c = l.noteCycle known c := by
  rw [Links.noteCycle, Links.noteCycle, h.entrance?_congr hc]
  cases he : l.entrance? c with
  | none => rfl
  | some e =>
    have helt : e < l.size := (reaches_of_entrance? he).closed (fun _ => h.parent_lt) hc
    simp only [h.cycleFrom helt]

/-- Going through the earlier classes, the search finds the cycles that it found. -/
theorem foldl_noteCycle : (List.range l.size).foldl l'.noteCycle [] = l.cycles := by
  rw [Links.cycles]
  refine List.foldl_ext _ _ _ ?_
  intro known c hc
  exact h.noteCycle (List.mem_range.1 hc) known

end Extends

end Links

/-! ## Hierarchies -/

/-- The classes of `g` are the first ones of `h`, and descend from no other class. -/
structure Hierarchy.Extends (g h : Hierarchy) : Prop where
  declaration? : ∀ {c}, c < g.size → h.declaration? c = g.declaration? c
  links : g.links.Extends h.links

namespace Hierarchy.Extends

variable {g h : Hierarchy} {a b c : ClassIndex} {name : String}

theorem nameOf (hgh : g.Extends h) (hc : c < g.size) : h.nameOf c = g.nameOf c := by
  rw [Hierarchy.nameOf, hgh.declaration? hc]
  rfl

theorem lt_size (hgh : g.Extends h) (hc : c < g.size) : c < h.size := by
  obtain ⟨d, hd⟩ := Hierarchy.exists_declaration hc
  exact Hierarchy.lt_size_of_declaration? ((hgh.declaration? hc).trans hd)

theorem lookup (hgh : g.Extends h) (hh : h.WellFormed) (hc : c < g.size) :
    h.lookup (g.nameOf c) = .ok c := by
  rw [← hgh.nameOf hc, hh.lookup_nameOf (hgh.lt_size hc)]

theorem isSealed (hgh : g.Extends h) (hc : c < g.size) : h.isSealed c = g.isSealed c := by
  rw [Hierarchy.isSealed, hgh.nameOf hc]
  rfl

section Answers

variable (hgh : g.Extends h) (hg : g.WellFormed)
include hgh hg

theorem parent? (hc : c < g.size) : h.parent? c = g.parent? c :=
  hgh.links.parent? (hg.size_links.symm ▸ hc)

theorem isRooted (hc : c < g.size) : h.isRooted c = g.isRooted c :=
  hgh.links.isRooted (hg.size_links.symm ▸ hc)

theorem superclasses (hc : c < g.size) : h.links.superclasses c = g.links.superclasses c :=
  hgh.links.superclasses (hg.size_links.symm ▸ hc)

theorem join (ha : a < g.size) (hb : b < g.size) : h.join a b = g.join a b := by
  rw [Hierarchy.join, Hierarchy.join, hgh.isSealed ha, hgh.isSealed hb, hgh.nameOf ha,
    hgh.nameOf hb,
    hgh.links.find?_lineage (hg.size_links.symm ▸ ha) (hg.size_links.symm ▸ hb)]

theorem rootPath (hc : c < g.size) : h.rootPath c = g.rootPath c := by
  rw [Hierarchy.rootPath, Hierarchy.rootPath, hgh.isRooted hg hc, hgh.nameOf hc]
  split
  · next hrooted =>
    have hroot : g.links.Reaches c Links.root := Links.isRooted_iff.1 hrooted
    rw [hgh.links.lineage_of_top (hg.size_links.symm ▸ hc) hroot hg.root_top]
  · rfl

/-- The answer to a question by name is the answer for the index of the class. -/
theorem map_nameOf {xs : List ClassIndex} (hc : c < g.size)
    (hxs : ∀ x ∈ xs, g.links.Reaches c x) : xs.map h.nameOf = xs.map g.nameOf :=
  List.map_congr_left fun x hx => hgh.nameOf (hg.lt_size_of_reaches hc (hxs x hx))

variable (hh : h.WellFormed)
include hh

theorem conforms (hc : c < g.size) : h.conforms c a = g.conforms c a := by
  rw [Bool.eq_iff_iff, hh.conforms_iff, hg.conforms_iff,
    hgh.links.reaches_iff (hg.size_links.symm ▸ hc)]

theorem superclassNames (hc : c < g.size) :
    h.superclassNames (g.nameOf c) = g.superclassNames (g.nameOf c) := by
  have habove : ∀ x ∈ g.links.superclasses c, g.links.Reaches c x :=
    fun x hx => Links.reaches_of_mem_cycleFrom (List.mem_cons_of_mem c hx)
  rw [Hierarchy.superclassNames, Hierarchy.superclassNames, hgh.lookup hh hc,
    hg.lookup_nameOf hc]
  show Except.ok _ = Except.ok _
  rw [hgh.superclasses hg hc, hgh.map_nameOf hg hc habove]

theorem compute (hc : c < g.size) :
    Layout.compute h (g.nameOf c) = Layout.compute g (g.nameOf c) := by
  rw [Layout.compute, Layout.compute, hgh.lookup hh hc, hg.lookup_nameOf hc]
  show (do let path ← h.rootPath c; _) = (do let path ← g.rootPath c; _)
  rw [hgh.rootPath hg hc]
  cases hpath : g.rootPath c with
  | error e => rfl
  | ok path =>
    have hlt := Hierarchy.Renumbering.lt_size_of_mem_rootPath hg hc hpath
    exact congrArg (fun ds => Except.ok (Layout.ofPath ds))
      (List.filterMap_congr fun x hx => hgh.declaration? (hlt x hx))

end Answers

end Hierarchy.Extends

end CoolHierarchy
