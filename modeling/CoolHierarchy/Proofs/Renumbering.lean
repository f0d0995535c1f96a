import CoolHierarchy.Layout.Basic
import CoolHierarchy.Proofs.Conformance
import CoolHierarchy.Proofs.CyclePath
import CoolHierarchy.Proofs.Levels
import Mathlib.Data.List.Find

/-!
# Hierarchies that differ in their indices only

A renumbering maps the classes of one hierarchy to those of another, so that names, parents and the
root are kept. Walks, and with them all answers, are carried over (`lineage`, `conforms`, `join`).
Answers by name do not mention indices, so they are the same.
-/

namespace CoolHierarchy.Hierarchy

/-- The classes of `g` are those of `h` under the indices that `f` gives them. -/
structure Renumbering (g h : Hierarchy) (f : ClassIndex → ClassIndex) : Prop where
  size_eq : h.size = g.size
  root : f Links.root = Links.root
  lt_size : ∀ {c}, c < g.size → f c < h.size
  nameOf : ∀ {c}, c < g.size → h.nameOf (f c) = g.nameOf c
  parent? : ∀ {c}, c < g.size → h.parent? (f c) = (g.parent? c).map f

theorem lookup_eq_ok {g : Hierarchy} {name : String} {c : ClassIndex} (h : g.lookup name = .ok c) :
    c < g.size ∧ g.nameOf c = name := by
  rw [lookup] at h
  split at h
  · next hindex =>
    cases h
    obtain ⟨d, hd, hname⟩ := ClassDeclaration.exists_of_indexIn? hindex
    exact ⟨lt_size_of_declaration? hd, (nameOf_of_declaration? hd).trans hname⟩
  · cases h

theorem lookup_eq_error {g : Hierarchy} {name : String} {e : QueryError}
    (h : g.lookup name = .error e) : e = .unknownClass name := by
  rw [lookup] at h
  split at h
  · cases h
  · cases h
    rfl

namespace Renumbering

variable {g h : Hierarchy} {f : ClassIndex → ClassIndex} {a b c d : ClassIndex} {name : String}
  {n : Nat}

section Classes

variable (hf : Renumbering g h f) (hg : g.WellFormed) (hh : h.WellFormed)
include hf hg

theorem inj (hc : c < g.size) (hd : d < g.size) (heq : f c = f d) : c = d := by
  have hname := hf.nameOf hc
  rw [heq, hf.nameOf hd] at hname
  exact hg.nameOf_inj hc hd hname.symm

theorem eq_iff (hc : c < g.size) (hd : d < g.size) : f c = f d ↔ c = d :=
  ⟨hf.inj hg hc hd, congrArg f⟩

theorem mem_map_iff {xs : List ClassIndex} (hxs : ∀ x ∈ xs, x < g.size) (hc : c < g.size) :
    f c ∈ xs.map f ↔ c ∈ xs := by
  rw [List.mem_map]
  constructor
  · rintro ⟨x, hx, heq⟩
    rwa [← hf.inj hg (hxs x hx) hc heq]
  · exact fun h => ⟨c, h, rfl⟩

/-- Every class of the other hierarchy has an index in this one. -/
theorem surj (hd : d < h.size) : ∃ c < g.size, f c = d := by
  have hmaps : (Finset.range g.size).image f ⊆ Finset.range h.size := by
    intro x hx
    obtain ⟨c, hc, rfl⟩ := Finset.mem_image.1 hx
    exact Finset.mem_range.2 (hf.lt_size (Finset.mem_range.1 hc))
  have hcard : ((Finset.range g.size).image f).card = g.size := by
    rw [Finset.card_image_of_injOn, Finset.card_range]
    intro c hc d hd heq
    exact hf.inj hg (by simpa using hc) (by simpa using hd) heq
  have hall : (Finset.range g.size).image f = Finset.range h.size :=
    Finset.eq_of_subset_of_card_le hmaps (by rw [hcard, Finset.card_range, hf.size_eq])
  obtain ⟨c, hc, hcd⟩ := Finset.mem_image.1 (hall.symm ▸ Finset.mem_range.2 hd)
  exact ⟨c, Finset.mem_range.1 hc, hcd⟩

omit hg in
theorem isSealed (hc : c < g.size) : h.isSealed (f c) = g.isSealed c := by
  rw [Hierarchy.isSealed, hf.nameOf hc]
  rfl

/-! ## Walks -/

theorem climb (hc : c < g.size) (n : Nat) :
    h.links.climb n (f c) = (g.links.climb n c).map f := by
  induction n generalizing c with
  | zero => rfl
  | succ n ih =>
    have hparent : h.links.parent? (f c) = (g.links.parent? c).map f := hf.parent? hc
    cases hp : g.links.parent? c with
    | none =>
      rw [hp] at hparent
      rw [Links.climb_succ_of_top hp, Links.climb_succ_of_top hparent]
      rfl
    | some p =>
      rw [hp] at hparent
      rw [Links.climb_succ_of_parent? hp, Links.climb_succ_of_parent? hparent,
        ih (hg.parent_lt hp)]

include hh

theorem lineage (hc : c < g.size) : h.links.lineage (f c) = (g.links.lineage c).map f := by
  apply List.ext_getElem?
  intro i
  rw [List.getElem?_map, Links.getElem?_lineage, Links.getElem?_lineage, hf.climb hg hc,
    hh.size_links, hf.size_eq, hg.size_links]
  split <;> rfl

theorem ancestors (hc : c < g.size) : h.links.ancestors (f c) = (g.links.ancestors c).map f :=
  congrArg List.tail (hf.lineage hg hh hc)

omit hf hh in
theorem lt_size_of_mem_lineage (hc : c < g.size) : ∀ a ∈ g.links.lineage c, a < g.size :=
  fun _ ha => hg.lt_size_of_reaches hc (Links.mem_lineage.1 ha)

theorem reaches_iff (hc : c < g.size) (ha : a < g.size) :
    h.links.Reaches (f c) (f a) ↔ g.links.Reaches c a := by
  rw [← Links.mem_lineage, hf.lineage hg hh hc, hf.mem_map_iff hg (lt_size_of_mem_lineage hg hc) ha,
    Links.mem_lineage]

/-! ## Answers by index -/

theorem isRooted (hc : c < g.size) : h.isRooted (f c) = g.isRooted c := by
  rw [Bool.eq_iff_iff, Hierarchy.isRooted, Hierarchy.isRooted, Links.isRooted_iff,
    Links.isRooted_iff, ← hf.reaches_iff hg hh hc hg.root_lt, hf.root]

theorem conforms (hc : c < g.size) (ha : a < g.size) :
    h.conforms (f c) (f a) = g.conforms c a := by
  have hroot : f a = Links.root ↔ a = Links.root := by
    rw [← hf.eq_iff hg ha hg.root_lt, hf.root]
  rw [Bool.eq_iff_iff, hh.conforms_iff, hg.conforms_iff, hf.reaches_iff hg hh hc ha, hroot]

/-- The first class on one walk that is also on another. -/
theorem find?_lineage (ha : a < g.size) (hb : b < g.size) :
    (h.links.lineage (f b)).find? (h.links.lineage (f a)).contains =
      ((g.links.lineage b).find? (g.links.lineage a).contains).map f := by
  rw [hf.lineage hg hh ha, hf.lineage hg hh hb, List.find?_map]
  congr 1
  refine List.find?_congr ?_
  intro x hx
  rw [Function.comp_apply, Bool.eq_iff_iff, List.contains_iff_mem, List.contains_iff_mem,
    hf.mem_map_iff hg (lt_size_of_mem_lineage hg ha) (lt_size_of_mem_lineage hg hb x hx)]

theorem join (ha : a < g.size) (hb : b < g.size) :
    h.join (f a) (f b) = (g.join a b).map f := by
  have hbeq : (f a == f b) = (a == b) := by
    rw [Bool.eq_iff_iff, beq_iff_eq, beq_iff_eq, hf.eq_iff hg ha hb]
  rw [Hierarchy.join, Hierarchy.join, hbeq, hf.isSealed ha, hf.isSealed hb,
    hf.find?_lineage hg hh ha hb, hf.nameOf ha, hf.nameOf hb]
  split
  · rfl
  · split
    · exact congrArg Except.ok hf.root.symm
    · cases (g.links.lineage b).find? (g.links.lineage a).contains <;> rfl

theorem rootPath (hc : c < g.size) : h.rootPath (f c) = (g.rootPath c).map (List.map f) := by
  rw [Hierarchy.rootPath, Hierarchy.rootPath, hf.isRooted hg hh hc, hf.lineage hg hh hc,
    hf.nameOf hc, ← List.map_reverse]
  split <;> rfl

omit hh in
theorem untilRepeat {seen xs : List ClassIndex} (hseen : ∀ x ∈ seen, x < g.size)
    (hxs : ∀ x ∈ xs, x < g.size) :
    Links.untilRepeat (seen.map f) (xs.map f) = (Links.untilRepeat seen xs).map f := by
  induction xs generalizing seen with
  | nil => rfl
  | cons x xs ih =>
    obtain ⟨hx, hxs⟩ := List.forall_mem_cons.1 hxs
    have hcontains : (seen.map f).contains (f x) = seen.contains x := by
      rw [Bool.eq_iff_iff, List.contains_iff_mem, List.contains_iff_mem, hf.mem_map_iff hg hseen hx]
    rw [List.map_cons, Links.untilRepeat, Links.untilRepeat, hcontains]
    split
    · rfl
    · rw [← List.map_cons, ih (List.forall_mem_cons.2 ⟨hx, hseen⟩) hxs, List.map_cons]

theorem superclasses (hc : c < g.size) :
    h.links.superclasses (f c) = (g.links.superclasses c).map f := by
  have habove : ∀ x ∈ g.links.ancestors c, x < g.size :=
    fun x hx => lt_size_of_mem_lineage hg hc x (List.mem_cons_of_mem c hx)
  have hself : ∀ x ∈ [c], x < g.size := by
    intro x hx
    cases List.mem_singleton.1 hx
    exact hc
  rw [Links.superclasses, Links.superclasses, hf.ancestors hg hh hc,
    ← hf.untilRepeat hg hself habove]
  rfl

theorem children (hc : c < g.size) : (h.children (f c)).Perm ((g.children c).map f) := by
  have hchild : ∀ d ∈ g.children c, d < g.size := fun _ => hg.lt_size_of_mem_children
  have hnodup : ((g.children c).map f).Nodup := by
    refine List.Nodup.map_on ?_ (Links.children_nodup _ c)
    intro x hx y hy
    exact hf.inj hg (hchild x hx) (hchild y hy)
  rw [Hierarchy.children, List.perm_ext_iff_of_nodup (Links.children_nodup _ _) hnodup]
  intro d
  rw [Links.mem_children, List.mem_map]
  constructor
  · intro hd
    obtain ⟨d, hdlt, rfl⟩ := hf.surj hg (hh.lt_size_of_parent? hd)
    have hparent := hf.parent? hdlt
    rw [Hierarchy.parent?, hd] at hparent
    obtain ⟨p, hp, hpc⟩ := Option.map_eq_some_iff.1 hparent.symm
    rw [hf.inj hg (hg.parent_lt hp) hc hpc] at hp
    exact ⟨d, Links.mem_children.2 hp, rfl⟩
  · rintro ⟨d, hd, rfl⟩
    have hp : g.parent? d = some c := Links.mem_children.1 hd
    have hparent := hf.parent? (hchild d hd)
    rw [hp] at hparent
    exact hparent

/-! ## Answers by name -/

/-- A class is found under its new index. -/
theorem lookup (name : String) : h.lookup name = (g.lookup name).map f := by
  cases hc : g.lookup name with
  | ok c =>
    obtain ⟨hlt, rfl⟩ := lookup_eq_ok hc
    rw [← hf.nameOf hlt, hh.lookup_nameOf (hf.lt_size hlt)]
    rfl
  | error e =>
    cases hd : h.lookup name with
    | error e' =>
      rw [lookup_eq_error hc, lookup_eq_error hd]
      rfl
    | ok d =>
      -- The name is registered in one hierarchy, so it is registered in the other.
      obtain ⟨hlt, rfl⟩ := lookup_eq_ok hd
      obtain ⟨c, hclt, rfl⟩ := hf.surj hg hlt
      rw [hf.nameOf hclt, hg.lookup_nameOf hclt] at hc
      cases hc

theorem isRootedByName (name : String) :
    (h.lookup name).map h.isRooted = (g.lookup name).map g.isRooted := by
  rw [hf.lookup hg hh name]
  cases hc : g.lookup name with
  | ok c => exact congrArg Except.ok (hf.isRooted hg hh (lookup_eq_ok hc).1)
  | error e => rfl

/-- A question by name has one answer when it has one answer by index. -/
theorem bind_lookup {α : Type} {ask ask' : ClassIndex → Except QueryError α}
    (hask : ∀ c < g.size, ask' (f c) = ask c) (name : String) :
    h.lookup name >>= ask' = g.lookup name >>= ask := by
  rw [hf.lookup hg hh name]
  cases hc : g.lookup name with
  | ok c => exact hask c (lookup_eq_ok hc).1
  | error e => rfl

omit hg hh in
theorem map_nameOf {xs : List ClassIndex} (hxs : ∀ x ∈ xs, x < g.size) :
    (xs.map f).map h.nameOf = xs.map g.nameOf := by
  rw [List.map_map]
  exact List.map_congr_left fun x hx => hf.nameOf (hxs x hx)

theorem parentNameOf (name : String) : h.parentNameOf name = g.parentNameOf name := by
  refine hf.bind_lookup hg hh ?_ name
  intro c hc
  rw [hf.parent? hc, Option.map_map]
  cases hp : g.parent? c with
  | none => rfl
  | some p => exact congrArg (fun name => Except.ok (some name)) (hf.nameOf (hg.parent_lt hp))

theorem superclassNames (name : String) : h.superclassNames name = g.superclassNames name := by
  refine hf.bind_lookup hg hh ?_ name
  intro c hc
  have habove : ∀ x ∈ g.links.superclasses c, x < g.size := by
    intro x hx
    exact lt_size_of_mem_lineage hg hc x (List.mem_cons_of_mem c (Links.mem_of_mem_untilRepeat hx))
  rw [hf.superclasses hg hh hc, hf.map_nameOf habove]

omit hf hh in
theorem lt_size_of_mem_rootPath {path : List ClassIndex} (hc : c < g.size)
    (h : g.rootPath c = .ok path) : ∀ x ∈ path, x < g.size := by
  rw [Hierarchy.rootPath] at h
  split at h
  · cases h
    intro x hx
    exact lt_size_of_mem_lineage hg hc x (List.mem_reverse.1 hx)
  · cases h

theorem rootPathNames (name : String) : h.rootPathNames name = g.rootPathNames name := by
  refine hf.bind_lookup hg hh ?_ name
  intro c hc
  rw [hf.rootPath hg hh hc]
  cases hpath : g.rootPath c with
  | error e => rfl
  | ok path => exact congrArg Except.ok (hf.map_nameOf (lt_size_of_mem_rootPath hg hc hpath))

theorem conformsByName (sub sup : String) :
    h.conformsByName sub sup = g.conformsByName sub sup := by
  refine hf.bind_lookup hg hh ?_ sub
  intro c hc
  refine hf.bind_lookup hg hh ?_ sup
  intro a ha
  rw [hf.conforms hg hh hc ha]

theorem joinByName (left right : String) : h.joinByName left right = g.joinByName left right := by
  refine hf.bind_lookup hg hh ?_ left
  intro a ha
  refine hf.bind_lookup hg hh ?_ right
  intro b hb
  rw [hf.join hg hh ha hb]
  cases hj : g.join a b with
  | error e => rfl
  | ok j => exact congrArg Except.ok (hf.nameOf (hg.join_lt_size ha hj))

theorem childNames (name : String) :
    (h.childNames name).map Multiset.ofList = (g.childNames name).map Multiset.ofList := by
  rw [Hierarchy.childNames, Hierarchy.childNames, hf.lookup hg hh name]
  cases hc : g.lookup name with
  | error e => rfl
  | ok c =>
    have hlt := (lookup_eq_ok hc).1
    have hchild : ∀ d ∈ g.children c, d < g.size := fun _ => hg.lt_size_of_mem_children
    have hperm := (hf.children hg hh hlt).map h.nameOf
    rw [hf.map_nameOf hchild] at hperm
    exact congrArg Except.ok (Multiset.coe_eq_coe.2 hperm)

theorem compute (hdeclared : ∀ c < g.size, h.declaration? (f c) = g.declaration? c)
    (name : String) : Layout.compute h name = Layout.compute g name := by
  refine hf.bind_lookup hg hh ?_ name
  intro c hc
  rw [hf.rootPath hg hh hc]
  cases hpath : g.rootPath c with
  | error e => rfl
  | ok path =>
    have hlt := lt_size_of_mem_rootPath hg hc hpath
    refine congrArg (fun ds => Except.ok (Layout.ofPath ds)) ?_
    rw [List.filterMap_map]
    exact List.filterMap_congr fun x hx => hdeclared x (hlt x hx)

/-! ## Cycles -/

omit hh in
theorem below_iff (hc : c < g.size) (ha : a < g.size) :
    h.links.Below (f c) (f a) ↔ g.links.Below c a := by
  rw [Links.below_iff_climb, Links.below_iff_climb]
  refine exists_congr fun n => ?_
  rw [hf.climb hg hc, Option.map_eq_some_iff]
  constructor
  · rintro ⟨b, hb, hba⟩
    rwa [← hf.inj hg (hg.lt_size_of_reaches hc (.of_climb hb)) ha hba]
  · exact fun hca => ⟨a, hca, rfl⟩

omit hf hh in
theorem lt_size_of_mem_isCycle {xs : List ClassIndex} (hxs : g.links.IsCycle xs) :
    ∀ x ∈ xs, x < g.size :=
  fun _ hx => hg.lt_size_of_below (hxs.onCycle hx)

omit hh in
theorem isCycle_map {xs : List ClassIndex} (hxs : g.links.IsCycle xs) :
    h.links.IsCycle (xs.map f) where
  ne_nil := by simpa using hxs.ne_nil
  nodup := by
    refine List.Nodup.map_on ?_ hxs.nodup
    intro x hx y hy
    exact hf.inj hg (lt_size_of_mem_isCycle hg hxs x hx) (lt_size_of_mem_isCycle hg hxs y hy)
  parent? := by
    intro i hi
    have hi' : i < xs.length := by simpa using hi
    have hlt := lt_size_of_mem_isCycle hg hxs xs[i] (List.getElem_mem hi')
    simp only [List.getElem_map, List.length_map, List.getElem?_map, ← hxs.parent? i hi']
    exact hf.parent? hlt

/-- The cycles of the one hierarchy, renumbered, are the cycles of the other. -/
theorem areCycles_map {cycles : List (List ClassIndex)} (hcycles : g.links.AreCycles cycles) :
    h.links.AreCycles (cycles.map (List.map f)) where
  isCycle := by
    intro cycle hcycle
    obtain ⟨xs, hxs, rfl⟩ := List.mem_map.1 hcycle
    exact hf.isCycle_map hg (hcycles.isCycle xs hxs)
  complete := by
    intro d hd
    obtain ⟨c, hc, rfl⟩ := hf.surj hg (hh.lt_size_of_below hd)
    obtain ⟨cycle, hcycle, hin⟩ := hcycles.complete c ((hf.below_iff hg hc hc).1 hd)
    exact ⟨cycle.map f, List.mem_map_of_mem hcycle, List.mem_map_of_mem hin⟩
  disjoint := by
    rw [List.pairwise_map]
    refine hcycles.disjoint.imp_of_mem ?_
    intro xs ys hxs hys hdisjoint b hb hb'
    obtain ⟨x, hx, rfl⟩ := List.mem_map.1 hb
    have hlt := lt_size_of_mem_isCycle hg (hcycles.isCycle ys hys)
    rw [hf.mem_map_iff hg hlt (lt_size_of_mem_isCycle hg (hcycles.isCycle xs hxs) x hx)] at hb'
    exact hdisjoint hx hb'

/-- Both hierarchies have the same cycles of names, entered anywhere. -/
theorem cyclePaths_perm {cycles cycles' : List (List ClassIndex)}
    (hcycles : g.links.AreCycles cycles) (hcycles' : h.links.AreCycles cycles') :
    ((cycles.map (List.map g.nameOf)).map Cycle.ofList).Perm
      ((cycles'.map (List.map h.nameOf)).map Cycle.ofList) := by
  have hleft : (cycles.map (List.map g.nameOf)).map Cycle.ofList =
      ((cycles.map (List.map f)).map Cycle.ofList).map (Cycle.map h.nameOf) := by
    simp only [List.map_map]
    refine List.map_congr_left ?_
    intro cycle hcycle
    have hlt := lt_size_of_mem_isCycle hg (hcycles.isCycle cycle hcycle)
    exact congrArg Cycle.ofList (hf.map_nameOf hlt).symm
  have hright : (cycles'.map (List.map h.nameOf)).map Cycle.ofList =
      (cycles'.map Cycle.ofList).map (Cycle.map h.nameOf) := by
    simp only [List.map_map]
    rfl
  rw [hleft, hright]
  exact ((hf.areCycles_map hg hh hcycles).perm hcycles').map (Cycle.map h.nameOf)

end Classes

end Renumbering

end CoolHierarchy.Hierarchy
