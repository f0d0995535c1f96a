import CoolHierarchy.Proofs.Conformance
import CoolHierarchy.Proofs.Levels

/-!
# Links written down at both ends

A hierarchy keeps the parent of each class and finds children by their parents. One pass over the
classes can write down every link at both of its ends instead (`Registry.linkTables?`). The pass
stays inside its tables, and what it ends with is what the hierarchy answers
(`exists_linkTables`).

* `links_sound`: what parents, children and indices have to do with each other and with the
  declarations, in the hierarchy of any program.
-/

namespace CoolHierarchy

/-- The parent and the children of each class. -/
structure LinkTables where
  parents : Array (Option ClassIndex)
  children : Array (List ClassIndex)

namespace LinkTables

/-- Tables for `n` classes without links. -/
def empty (n : Nat) : LinkTables :=
  ⟨Array.replicate n none, Array.replicate n []⟩

/-- Writes down the link of a class to its parent in both tables. There is nowhere to write for an
index that is not in the tables. -/
def link? (t : LinkTables) (c p : ClassIndex) : Option LinkTables :=
  if c < t.parents.size ∧ p < t.children.size then
    some ⟨t.parents.setIfInBounds c (some p), t.children.modify p (· ++ [c])⟩
  else none

/-- The tables hold the links of the classes below an index, and those links only. -/
structure HoldBelow (t : LinkTables) (l : Links) (n : Nat) : Prop where
  size_parents : t.parents.size = l.size
  size_children : t.children.size = l.size
  parents : ∀ c < l.size, t.parents[c]? = some (if c < n then l.parent? c else none)
  children : ∀ p < l.size, t.children[p]? =
    some ((List.range n).filter fun c => l.parent? c == some p)

variable {t t' : LinkTables} {l : Links} {c p : ClassIndex} {n : Nat}

/-- The parents of the classes below the next index are those below an index and the one at it. -/
theorem parentBelow_succ (l : Links) (n : Nat) (c : ClassIndex) :
    (if c < n + 1 then l.parent? c else none) =
      if n = c then l.parent? n else if c < n then l.parent? c else none := by
  by_cases hc : n = c
  · subst hc
    rw [if_pos rfl, if_pos (Nat.lt_succ_self n)]
  · have hlt : c < n + 1 ↔ c < n :=
      ⟨fun h => Nat.lt_of_le_of_ne (Nat.le_of_lt_succ h) (Ne.symm hc), Nat.lt_succ_of_lt⟩
    simp only [if_neg hc, hlt]

theorem holdBelow_empty (l : Links) : (empty l.size).HoldBelow l 0 where
  size_parents := Array.size_replicate
  size_children := Array.size_replicate
  parents c hc := by simp [empty, hc]
  children p hp := by simp [empty, hp]

/-- A class without a parent adds nothing. -/
theorem HoldBelow.skip (h : t.HoldBelow l n) (hn : l.parent? n = none) : t.HoldBelow l (n + 1) where
  size_parents := h.size_parents
  size_children := h.size_children
  parents := by
    intro c hc
    rw [h.parents c hc, parentBelow_succ, hn]
    by_cases hnc : n = c
    · subst hnc
      rw [if_neg (Nat.lt_irrefl n), if_pos rfl]
    · rw [if_neg hnc]
  children := by
    intro p hp
    rw [h.children p hp, List.range_succ, List.filter_append]
    simp [hn]

/-- The link of the next class goes to the end of the children of its parent. -/
theorem HoldBelow.link? (h : t.HoldBelow l n) (hn : l.parent? n = some p) (hp : p < l.size) :
    ∃ t', t.link? n p = some t' ∧ t'.HoldBelow l (n + 1) := by
  have hn' : n < l.size := Links.lt_size_of_parent? hn
  have hbounds : n < t.parents.size ∧ p < t.children.size := by
    rw [h.size_parents, h.size_children]
    exact ⟨hn', hp⟩
  refine ⟨_, if_pos hbounds, ?_⟩
  constructor
  · rw [Array.size_setIfInBounds, h.size_parents]
  · rw [Array.size_modify, h.size_children]
  · intro c hc
    rw [Array.getElem?_setIfInBounds, h.parents c hc, parentBelow_succ, hn, if_pos hbounds.1]
    split <;> rfl
  · intro q hq
    rw [Array.getElem?_modify, h.children q hq, List.range_succ, List.filter_append]
    by_cases hpq : p = q
    · subst hpq
      simp [hn]
    · simp [hn, hpq]

end LinkTables

namespace Registry

variable {r : Registry} {t : LinkTables} {n : Nat}

/-- Writes down the link of a class, if the class is linked. -/
def linkClass? (r : Registry) (t : LinkTables) (c : ClassIndex) : Option LinkTables := do
  let d ← r.classes[c]?
  match r.link? d with
  | none => return t
  | some p => t.link? c p

/-- Goes through all classes in the order of registration. -/
def linkTables? (r : Registry) : Option LinkTables :=
  (List.range r.size).foldlM r.linkClass? (.empty r.size)

/-- The next class is written down. Its parent may come before it or after it, or be the class
itself. -/
theorem WellFormed.linkClass? (hr : r.WellFormed) (hn : n < r.size)
    (h : t.HoldBelow r.links n) :
    ∃ t', r.linkClass? t n = some t' ∧ t'.HoldBelow r.links (n + 1) := by
  obtain ⟨d, hd⟩ : ∃ d, r.classes[n]? = some d := ⟨r.classes[n], Array.getElem?_eq_getElem hn⟩
  have hparent : r.links.parent? n = r.link? d := parent?_hierarchy_of_getElem? hd
  rw [Registry.linkClass?, hd, Option.bind_eq_bind, Option.bind_some]
  cases hlink : r.link? d with
  | none => exact ⟨t, rfl, h.skip (hparent.trans hlink)⟩
  | some p =>
    rw [hlink] at hparent
    exact h.link? hparent (hr.hierarchy.size_links ▸ hr.hierarchy.parent_lt hparent)

/-- A pass over the first classes writes down their links. -/
theorem WellFormed.foldlM_linkClass? (hr : r.WellFormed) (hn : n ≤ r.size) :
    ∃ t, (List.range n).foldlM r.linkClass? (.empty r.size) = some t ∧ t.HoldBelow r.links n := by
  induction n with
  | zero =>
    have hsize : r.links.size = r.size := hr.hierarchy.size_links
    exact ⟨.empty r.size, rfl, hsize ▸ LinkTables.holdBelow_empty r.links⟩
  | succ n ih =>
    obtain ⟨t, ht, hold⟩ := ih (Nat.le_of_succ_le hn)
    obtain ⟨t', ht', hold'⟩ := hr.linkClass? hn hold
    refine ⟨t', ?_, hold'⟩
    rw [List.range_succ, List.foldlM_append, ht]
    simpa using ht'

/-- The pass ends with the parents and the children that the hierarchy answers. -/
theorem WellFormed.exists_linkTables (hr : r.WellFormed) :
    ∃ t, r.linkTables? = some t ∧ ∀ c < r.hierarchy.size,
      t.parents[c]? = some (r.hierarchy.parent? c) ∧
      t.children[c]? = some (r.hierarchy.children c) := by
  obtain ⟨t, ht, hold⟩ := hr.foldlM_linkClass? (Nat.le_refl r.size)
  have hsize : r.links.size = r.size := hr.hierarchy.size_links
  refine ⟨t, ht, fun c hc => ⟨?_, ?_⟩⟩
  · rw [hold.parents c (hsize ▸ hc), if_pos (show c < r.size from hc)]
    rfl
  · rw [hold.children c (hsize ▸ hc), ← hsize]
    rfl

theorem toList_classes_add {d : ClassDeclaration} (h : r.refusal? d = none) :
    (r.add d).1.classes.toList = r.classes.toList ++ [d] := by
  rw [add_of_no_refusal h]
  simp [classes]

/-- Registered classes stay where they are when more are taken in. -/
theorem classes_prefix_addAll (r : Registry) (ds : List ClassDeclaration) :
    r.classes.toList <+: (r.addAll ds).classes.toList := by
  induction ds generalizing r with
  | nil => exact List.prefix_rfl
  | cons d ds ih =>
    refine List.IsPrefix.trans ?_ (ih (r.add d).1)
    cases h : r.refusal? d with
    | none =>
      rw [toList_classes_add h]
      exact List.prefix_append _ _
    | some fault =>
      rw [add_of_refusal h]
      exact List.prefix_rfl

/-- The index that a declaration gets when it is accepted is its index for good. -/
theorem getElem?_classes_of_add {d : ClassDeclaration} {c : ClassIndex}
    (h : (r.add d).2 = some c) (ds : List ClassDeclaration) :
    (r.addAll (d :: ds)).classes[c]? = some d := by
  cases hrefusal : r.refusal? d with
  | some fault =>
    rw [add_of_refusal hrefusal] at h
    cases h
  | none =>
    rw [add_of_no_refusal hrefusal] at h
    cases h
    obtain ⟨later, hlater⟩ := classes_prefix_addAll (r.add d).1 ds
    rw [toList_classes_add hrefusal] at hlater
    have hlast : (r.classes.toList ++ [d])[r.size]? = some d := List.getElem?_concat_length
    have hlt := (List.getElem?_eq_some_iff.1 hlast).1
    show ((r.add d).1.addAll ds).classes[r.size]? = some d
    rw [← Array.getElem?_toList, ← hlater, List.getElem?_append_left hlt, hlast]

end Registry

/-- What indices, parents and children have to do with each other and with the declarations. -/
structure Hierarchy.SoundLinks (g : Hierarchy) : Prop where
  /-- A name stands for the class that has it. -/
  indexOf?_iff : ∀ name c, g.indexOf? name = some c ↔ c < g.size ∧ g.nameOf c = name
  parent_lt : ∀ c p, g.parent? c = some p → c < g.size ∧ p < g.size
  child_lt : ∀ c p, c ∈ g.children p → c < g.size ∧ p < g.size
  /-- A link is seen from both of its ends. -/
  inverse : ∀ c p, g.parent? c = some p ↔ c ∈ g.children p
  child_once : ∀ c p, c ∈ g.children p → (g.children p).count c = 1
  children_increasing : ∀ p, (g.children p).Pairwise (· < ·)
  root_top : g.parent? Links.root = none
  sealed_childless : ∀ c, g.isSealed c = true → g.children c = []
  /-- A class is linked to what it names as its parent, or to the root when it names none, unless
  that is sealed or not registered. -/
  parent_declared : ∀ c d, g.declaration? c = some d → c ≠ Links.root →
    g.parent? c = if isSealedName (d.parentName?.getD rootName) then none
      else g.indexOf? (d.parentName?.getD rootName)
  /-- Walks along parents or children stay among the registered classes. -/
  walk_lt : ∀ c < g.size, ∀ a, g.links.Reaches c a ∨ g.links.Reaches a c → a < g.size
  ancestors_lt : ∀ c < g.size, ∀ a ∈ g.ancestors c, a < g.size
  declared : ∀ c < g.size, ∃ d, g.declaration? c = some d

theorem Registry.WellFormed.soundLinks {r : Registry} (hr : r.WellFormed) :
    r.hierarchy.SoundLinks where
  indexOf?_iff := by
    intro name c
    constructor
    · intro h
      obtain ⟨d, hd, hname⟩ := ClassDeclaration.exists_of_indexIn? h
      exact ⟨Hierarchy.lt_size_of_declaration? hd,
        (Hierarchy.nameOf_of_declaration? hd).trans hname⟩
    · rintro ⟨hc, rfl⟩
      obtain ⟨d, hd⟩ := Hierarchy.exists_declaration hc
      rw [Hierarchy.nameOf_of_declaration? hd]
      exact ClassDeclaration.indexIn?_of_getElem? hr.names_nodup hd
  parent_lt _ _ hp := ⟨hr.hierarchy.lt_size_of_parent? hp, hr.hierarchy.parent_lt hp⟩
  child_lt _ _ hc :=
    ⟨hr.hierarchy.lt_size_of_mem_children hc, hr.hierarchy.parent_lt (Links.mem_children.1 hc)⟩
  inverse _ _ := Links.mem_children.symm
  child_once _ _ hc := List.count_eq_one_of_mem (Links.children_nodup _ _) hc
  children_increasing p := Links.children_pairwise_lt _ p
  root_top := hr.hierarchy.root_top
  sealed_childless := by
    intro c hc
    rw [List.eq_nil_iff_forall_not_mem]
    intro d hd
    have hopen := hr.hierarchy.parent_unsealed (Links.mem_children.1 hd)
    rw [hc] at hopen
    cases hopen
  parent_declared _ _ := hr.parent?_eq_of_declared
  walk_lt := by
    rintro c hc a (h | h)
    · exact hr.hierarchy.lt_size_of_reaches hc h
    · rcases h.eq_or_below with rfl | h
      · exact hc
      · exact hr.hierarchy.lt_size_of_below h
  ancestors_lt _ hc _ ha := hr.hierarchy.lt_size_of_reaches hc (Links.mem_ancestors.1 ha).reaches
  declared _ := Hierarchy.exists_declaration

/-- The links of any program. The index of an accepted declaration is where the hierarchy holds it;
parents, children and names agree with each other and with the declarations; and one pass over the
classes that writes down both ends of every link never leaves its tables and ends with the same
parents and children. -/
theorem links_sound (entryClass : String) (ds : List ClassDeclaration) :
    let g := (Analysis.build entryClass ds).hierarchy
    (∀ before d after c, ds = before ++ d :: after →
      ((Registry.addAll { entryClass } before).add d).2 = some c → g.declaration? c = some d) ∧
    g.SoundLinks ∧
    ∃ t, (Registry.addAll { entryClass } ds).linkTables? = some t ∧ ∀ c < g.size,
      t.parents[c]? = some (g.parent? c) ∧ t.children[c]? = some (g.children c) := by
  intro g
  have hr : (Registry.addAll { entryClass } ds).WellFormed :=
    Analysis.wellFormed_registry entryClass ds
  refine ⟨?_, hr.soundLinks, hr.exists_linkTables⟩
  rintro before d after c rfl hadd
  have hclasses := Registry.getElem?_classes_of_add hadd after
  rw [Registry.addAll, Registry.addAll, ← List.foldl_append] at hclasses
  exact hclasses

/-- `Early` comes before its parent, `Loop` descends from itself, and the parents of `Number` and
`Lost` are sealed and missing. -/
def tangledProgram : List ClassDeclaration :=
  [.inheriting (.named "Early") "Late", .inheriting (.named "Loop") "Loop",
    .inheriting (.named "Number") "Int", .inheriting (.named "Lost") "Nowhere", .named "Late"]

/-- `Loop` stays at its index. The pass links `Early` to `Late`, which comes last, and `Loop` to
itself, and nothing to `Int`. -/
theorem links_tangledProgram :
    let g := (Analysis.build "Main" tangledProgram).hierarchy
    g.declaration? 6 = some (.inheriting (.named "Loop") "Loop") ∧
    g.nameOf 9 = "Late" ∧ g.parent? 5 = some 9 ∧ g.nameOf 3 = "Int" ∧ g.children 3 = [] ∧
    ∃ t, (Registry.addAll { entryClass := "Main" } tangledProgram).linkTables? = some t ∧
      t.parents[5]? = some (some 9) ∧ t.children[9]? = some [5] ∧ t.children[6]? = some [6] := by
  intro g
  obtain ⟨hindex, hsound, t, ht, htables⟩ := links_sound "Main" tangledProgram
  have hplace := hindex [.inheriting (.named "Early") "Late"] (.inheriting (.named "Loop") "Loop")
    _ 6 rfl (by decide +kernel)
  have hparent : g.parent? 5 = some 9 := by decide +kernel
  have hchildren : g.children 9 = [5] := by decide +kernel
  have hloop : g.children 6 = [6] := by decide +kernel
  refine ⟨hplace, by decide +kernel, hparent, by decide +kernel,
    hsound.sealed_childless 3 (by decide +kernel), t, ht, ?_, ?_, ?_⟩
  · rw [(htables 5 (by decide +kernel)).1]
    exact congrArg some hparent
  · rw [(htables 9 (by decide +kernel)).2]
    exact congrArg some hchildren
  · rw [(htables 6 (by decide +kernel)).2]
    exact congrArg some hloop

end CoolHierarchy
