import CoolHierarchy.Proofs.BrokenChains
import CoolHierarchy.Proofs.Extension
import CoolHierarchy.Proofs.Registration

/-!
# Adding a class that nothing descends from

A class is unrelated to a program when its name is new and no accepted declaration names it as its
parent (`Registry.Unrelated`). Declared last, it extends the hierarchy (`extends_add`): it may
become a child of an earlier class, and what is wrong with it is reported beside the errors that
were there (`errors_add`).

* `unrelated_class_added`: which answers and errors stay, and what comes with the class.
-/

namespace CoolHierarchy

/-- What is wrong with a class that no class declared before it descends from. -/
def ClassDeclaration.ownError? (declared : List ClassDeclaration) (d : ClassDeclaration) :
    Option HierarchyError :=
  if d.parentName? = some d.name.name then some (d.blame (.inheritanceCycle [d.name.name]))
  else (parentFault? declared d).map d.blame

/-- A class that is its own parent makes up a cycle. -/
theorem Links.noteCycle_of_self {l : Links} {c : ClassIndex} {known : List (List ClassIndex)}
    (hself : l.parent? c = some c) (hnew : ¬ ∃ cycle ∈ known, c ∈ cycle) :
    l.noteCycle known c = known ++ [[c]] := by
  have honly : ∀ {a}, l.Reaches c a → a = c := by
    intro a h
    refine h.closed (P := (· = c)) ?_ rfl
    rintro b p rfl hp
    exact Option.some.inj (hp.symm.trans hself)
  have hcycle : l.OnCycle c := ⟨c, hself, .refl c⟩
  rcases noteCycle_cases l known c with ⟨hnone, _⟩ | ⟨e, he, ⟨hknown, _⟩ | ⟨_, h⟩⟩
  · obtain ⟨t, ht, htop⟩ := exists_top_of_entrance?_eq_none hnone
    exact absurd ht (hcycle.not_reaches_top htop)
  · have hentry := reaches_of_entrance? he
    rw [honly hentry] at hknown
    exact absurd hknown hnew
  · have hentry := reaches_of_entrance? he
    obtain ⟨hnot, _⟩ := List.nodup_cons.1 hcycle.isCycle_cycleFrom.nodup
    have hsuper : l.superclasses c = [] := by
      rw [List.eq_nil_iff_forall_not_mem]
      intro a ha
      rw [honly (reaches_of_mem_cycleFrom (List.mem_cons_of_mem c ha))] at ha
      exact hnot ha
    rw [h, honly hentry, cycleFrom, hsuper]

namespace Registry

variable {r : Registry} {c : ClassIndex} {d e : ClassDeclaration} {name : String}

/-- Only the last pass of an analysis reports a missing entry class. -/
theorem WellFormed.fault_ne_missingEntry (hr : r.WellFormed) {error : HierarchyError}
    (herror : error ∈ r.errors.toList ++ r.linkErrors ++ r.cycleErrors) (name : String) :
    error.fault ≠ .missingEntry name := by
  simp only [List.mem_append] at herror
  rcases herror with (herror | herror) | herror
  · obtain ⟨other, h | h⟩ := hr.errors_refusals error (Array.mem_toList_iff.1 herror)
    · rw [h]
      exact Fault.noConfusion
    · rw [h]
      exact Fault.noConfusion
  · obtain ⟨c, d, hc, hfault, _⟩ := mem_linkErrors.1 herror
    rcases hr.resolveParent_cases hc with ⟨_, h⟩ | ⟨_, p, q, h, _⟩ | ⟨_, fault, h, hsevered⟩
    · rw [h] at hfault
      cases hfault
    · rw [h] at hfault
      cases hfault
    · rw [h] at hfault
      cases hfault
      intro hmissing
      rw [hmissing] at hsevered
      cases hsevered
  · obtain ⟨cycle, _, rfl⟩ := List.mem_map.1 herror
    exact Fault.noConfusion

/-- The declaration has a new name that nothing descends from. -/
structure Unrelated (r : Registry) (d : ClassDeclaration) : Prop where
  unreserved : d.name.name ∉ reservedNames
  unregistered : ∀ e ∈ r.accepted, e.name.name ≠ d.name.name
  unnamed : ∀ e ∈ r.accepted, e.parentName? ≠ some d.name.name

namespace Unrelated

section Registered

variable (hd : r.Unrelated d)
include hd

theorem add_eq : r.add d = ({ r with accepted := r.accepted.push d }, some r.size) :=
  add_of_no_refusal (refusal?_eq_none_iff.2 ⟨hd.unreserved, hd.unregistered⟩)

theorem ne_rootName : d.name.name ≠ rootName := by
  intro hname
  have hreserved : rootName ∈ reservedNames := by decide
  exact hd.unreserved (hname ▸ hreserved)

/-! ## What is registered -/

theorem classes_add : (r.add d).1.classes = r.classes.push d := by
  rw [hd.add_eq]
  simp [classes]

theorem size_hierarchy_add : (r.add d).1.hierarchy.size = r.hierarchy.size + 1 := by
  show (r.add d).1.classes.size = r.classes.size + 1
  rw [hd.classes_add, Array.size_push]

theorem declaration?_add (hc : c < r.hierarchy.size) :
    (r.add d).1.hierarchy.declaration? c = r.hierarchy.declaration? c := by
  have hne : c ≠ r.classes.size := Nat.ne_of_lt hc
  show (r.add d).1.classes[c]? = r.classes[c]?
  rw [hd.classes_add, Array.getElem?_push, if_neg hne]

theorem declaration?_add_size : (r.add d).1.hierarchy.declaration? r.hierarchy.size = some d := by
  show (r.add d).1.classes[r.classes.size]? = some d
  rw [hd.classes_add, Array.getElem?_push_size]

/-- Other names are looked up as before. -/
theorem indexOf?_add (hname : name ≠ d.name.name) :
    (r.add d).1.indexOf? name = r.indexOf? name := by
  rw [indexOf?, ClassDeclaration.indexIn?, hd.classes_add, Array.findIdx?_push,
    if_neg (by simpa using Ne.symm hname), Option.or_none]
  rfl

/-! ## Links -/

/-- No registered class looks for the new one. -/
theorem effectiveParent?_ne (he : e ∈ r.classes) : e.effectiveParent? ≠ some d.name.name := by
  rcases mem_classes.1 he with ⟨b, rfl⟩ | hacc
  · -- The basic classes descend from the root or from nothing.
    have hparent : ∀ parent, b.declaration.effectiveParent? = some parent → parent = rootName := by
      cases b <;> simp +decide
    exact fun h => hd.ne_rootName (hparent _ h)
  · rw [ClassDeclaration.effectiveParent?]
    have hunnamed := hd.unnamed e hacc
    cases hparent : e.parentName? with
    | some parent => rwa [hparent] at hunnamed
    | none =>
      show (if _ then none else some rootName) ≠ _
      split
      · exact (Option.some_ne_none _).symm
      · exact fun h => hd.ne_rootName (Option.some.inj h).symm

/-- The look-up of a parent ends as before. -/
theorem resolveParent_add (he : e ∈ r.classes) :
    (r.add d).1.resolveParent e = r.resolveParent e := by
  rw [resolveParent, resolveParent]
  cases hparent : e.effectiveParent? with
  | none => rfl
  | some parent =>
    have hname : parent ≠ d.name.name := by
      intro hname
      exact hd.effectiveParent?_ne he (hname ▸ hparent)
    simp only [hd.indexOf?_add hname]

theorem parent?_add (hc : c < r.hierarchy.size) :
    (r.add d).1.hierarchy.parent? c = r.hierarchy.parent? c := by
  obtain ⟨e, he⟩ := Hierarchy.exists_declaration hc
  rw [parent?_hierarchy_of_getElem? ((hd.declaration?_add hc).trans he),
    parent?_hierarchy_of_getElem? he, link?, link?,
    hd.resolveParent_add (Array.mem_of_getElem? he)]

theorem linkErrors_add :
    (r.add d).1.linkErrors = r.linkErrors ++ ((r.add d).1.linkError? d).toList := by
  have hold : r.classes.toList.filterMap (r.add d).1.linkError? = r.linkErrors := by
    refine List.filterMap_congr fun e he => ?_
    rw [linkError?, linkError?, hd.resolveParent_add (Array.mem_toList_iff.1 he)]
  rw [linkErrors, hd.classes_add, Array.toList_push, List.filterMap_append, hold]
  cases h : (r.add d).1.linkError? d <;> simp [h]

theorem entryErrors_add :
    (r.add d).1.entryErrors = if d.name.name = r.entryClass then [] else r.entryErrors := by
  rw [hd.add_eq]
  simp only [entryErrors, hasEntryClass, Array.any_push, Bool.or_eq_true, beq_iff_eq]
  by_cases hname : d.name.name = r.entryClass <;> simp [hname]

end Registered

section Hierarchies

variable (hd : r.Unrelated d) (hr : r.WellFormed)
include hd hr

/-- The hierarchy grows at its end, and its classes stay linked as they were. -/
theorem extends_add : r.hierarchy.Extends (r.add d).1.hierarchy where
  declaration? := hd.declaration?_add
  links :=
    { size_le := by
        rw [hr.hierarchy.size_links, (hr.add d).hierarchy.size_links, hd.size_hierarchy_add]
        exact Nat.le_succ _
      parent? := fun hc => hd.parent?_add (hr.hierarchy.size_links ▸ hc)
      parent_lt := fun hp => hr.hierarchy.size_links.symm ▸ hr.hierarchy.parent_lt hp }

/-- The new class becomes the last child of its parent. -/
theorem children_add (c : ClassIndex) :
    (r.add d).1.hierarchy.children c = r.hierarchy.children c ++
      if (r.add d).1.hierarchy.parent? r.hierarchy.size = some c then [r.hierarchy.size] else [] := by
  have hsize : (r.add d).1.hierarchy.links.size = r.hierarchy.links.size + 1 := by
    rw [hr.hierarchy.size_links, (hr.add d).hierarchy.size_links, hd.size_hierarchy_add]
  have hold : (List.range r.hierarchy.links.size).filter
      (fun e => (r.add d).1.hierarchy.links.parent? e == some c) = r.hierarchy.children c := by
    refine List.filter_congr fun e he => ?_
    rw [(hd.extends_add hr).links.parent? (List.mem_range.1 he)]
  rw [Hierarchy.children, Links.children, hsize, List.range_succ, List.filter_append, hold,
    hr.hierarchy.size_links, List.filter_singleton, Bool.cond_eq_ite]
  simp only [beq_iff_eq]
  rfl

/-! ## The class itself -/

/-- The new class is its own parent when it names itself. -/
theorem parent?_size_iff :
    (r.add d).1.hierarchy.parent? r.hierarchy.size = some r.hierarchy.size ↔
      d.parentName? = some d.name.name := by
  have hindex : (r.add d).1.hierarchy.indexOf? (d.parentName?.getD rootName) =
      some r.hierarchy.size ↔ d.parentName?.getD rootName = d.name.name := by
    rw [(hr.add d).soundLinks.indexOf?_iff, hd.size_hierarchy_add,
      Hierarchy.nameOf_of_declaration? hd.declaration?_add_size]
    exact ⟨fun h => h.2.symm, fun h => ⟨Nat.lt_succ_self _, h.symm⟩⟩
  have hself : d.parentName?.getD rootName = d.name.name ↔ d.parentName? = some d.name.name := by
    cases d.parentName? with
    | none => simpa using Ne.symm hd.ne_rootName
    | some parent => simp
  have hopen : isSealedName d.name.name = false := by
    rw [← Bool.not_eq_true, isSealedName_iff]
    have hsub : sealedNames ⊆ reservedNames := by decide
    exact fun hsealed => hd.unreserved (hsub hsealed)
  rw [(hr.add d).parent?_eq_of_declared hd.declaration?_add_size (Nat.ne_of_gt hr.hierarchy.root_lt),
    ← hself, ← hindex]
  split
  · next hsealed =>
    refine ⟨fun h => absurd h (Option.some_ne_none _).symm, fun h => ?_⟩
    rw [hindex.1 h, hopen] at hsealed
    cases hsealed
  · rfl

/-- Nothing but the new class descends from it, so it is on no cycle but its own. -/
theorem parent?_of_onCycle (h : (r.add d).1.hierarchy.links.OnCycle r.hierarchy.size) :
    (r.add d).1.hierarchy.parent? r.hierarchy.size = some r.hierarchy.size := by
  obtain ⟨c, _, hc⟩ := h.exists_child
  have hlt : c < (r.add d).1.hierarchy.size := (hr.add d).hierarchy.lt_size_of_parent? hc
  rw [hd.size_hierarchy_add] at hlt
  rcases Nat.lt_or_eq_of_le (Nat.le_of_lt_succ hlt) with hlt | rfl
  · have hp := hd.parent?_add hlt
    rw [Hierarchy.parent?, hc] at hp
    exact absurd (hr.hierarchy.parent_lt hp.symm) (Nat.lt_irrefl _)
  · exact hc

/-- Where the walk from the new class enters a cycle, the cycle is known or it is the class. -/
theorem noteCycle_size (hself : (r.add d).1.hierarchy.parent? r.hierarchy.size ≠
    some r.hierarchy.size) :
    (r.add d).1.hierarchy.links.noteCycle r.hierarchy.links.cycles r.hierarchy.size =
      r.hierarchy.links.cycles := by
  rcases Links.noteCycle_cases (r.add d).1.hierarchy.links r.hierarchy.links.cycles
    r.hierarchy.size with ⟨_, h⟩ | ⟨e, he, ⟨_, h⟩ | ⟨hnew, _⟩⟩
  · exact h
  · exact h
  · -- The class is not on the cycle that it leads to, so the cycle was there before.
    have hcycle := Links.onCycle_of_entrance? he
    have hreach := Links.reaches_of_entrance? he
    have hne : e ≠ r.hierarchy.size := by
      rintro rfl
      exact hself (hd.parent?_of_onCycle hr hcycle)
    have helt : e < r.hierarchy.size := by
      have hsize : r.hierarchy.size < (r.add d).1.hierarchy.size := by
        rw [hd.size_hierarchy_add]
        exact Nat.lt_succ_self _
      have hlt := (hr.add d).hierarchy.lt_size_of_reaches hsize hreach
      rw [hd.size_hierarchy_add] at hlt
      exact Nat.lt_of_le_of_ne (Nat.le_of_lt_succ hlt) hne
    have hold : r.hierarchy.links.OnCycle e :=
      ((hd.extends_add hr).links.below_iff (hr.hierarchy.size_links.symm ▸ helt)).1 hcycle
    exact absurd hold.exists_mem_cycles hnew

theorem cycles_add : (r.add d).1.hierarchy.links.cycles = r.hierarchy.links.cycles ++
    if d.parentName? = some d.name.name then [[r.hierarchy.size]] else [] := by
  have hsize : (r.add d).1.hierarchy.links.size = r.hierarchy.links.size + 1 := by
    rw [hr.hierarchy.size_links, (hr.add d).hierarchy.size_links, hd.size_hierarchy_add]
  rw [Links.cycles, hsize, List.range_succ, List.foldl_append,
    (hd.extends_add hr).links.foldl_noteCycle, hr.hierarchy.size_links, List.foldl_cons,
    List.foldl_nil]
  have hself := hd.parent?_size_iff hr
  by_cases hname : d.parentName? = some d.name.name
  · -- No cycle that was there before has the class.
    have hnew : ¬ ∃ cycle ∈ r.hierarchy.links.cycles, r.hierarchy.size ∈ cycle := by
      rintro ⟨cycle, hcycle, hin⟩
      exact absurd (hr.lt_size_of_mem_cycles hcycle hin) (Nat.lt_irrefl _)
    rw [if_pos hname, Links.noteCycle_of_self (hself.2 hname) hnew]
  · rw [if_neg hname, hd.noteCycle_size hr (fun h => hname (hself.1 h)), List.append_nil]

/-! ## Errors -/

theorem cycleErrors_add : (r.add d).1.cycleErrors = r.cycleErrors ++
    if d.parentName? = some d.name.name then [d.blame (.inheritanceCycle [d.name.name])]
    else [] := by
  have hold : r.hierarchy.links.cycles.map (cycleError (r.add d).1.hierarchy) = r.cycleErrors := by
    refine List.map_congr_left fun cycle hcycle => ?_
    have hlt : ∀ c ∈ cycle, c < r.hierarchy.size := fun c hc => hr.lt_size_of_mem_cycles hcycle hc
    have hnames : cycle.map (r.add d).1.hierarchy.nameOf = cycle.map r.hierarchy.nameOf :=
      List.map_congr_left fun c hc => (hd.extends_add hr).nameOf (hlt c hc)
    have hspan : cycle.head?.bind (r.add d).1.hierarchy.declaration? =
        cycle.head?.bind r.hierarchy.declaration? := by
      cases cycle with
      | nil => rfl
      | cons c rest => exact hd.declaration?_add (hlt c List.mem_cons_self)
    rw [cycleError, cycleError, hnames, hspan]
  rw [cycleErrors, hd.cycles_add hr, List.map_append, hold]
  split
  · simp [cycleError, hd.declaration?_add_size, Hierarchy.nameOf, ClassDeclaration.blame]
  · rfl

omit hr in
theorem linkError?_add : (r.add d).1.linkError? d =
    if d.parentName? = some d.name.name then none
    else (ClassDeclaration.parentFault? r.accepted.toList d).map d.blame := by
  have hunreserved : isReservedName d.name.name = false := by
    rw [← Bool.not_eq_true, isReservedName_iff]
    exact hd.unreserved
  have hopen : d.name.name ∉ sealedNames := by
    have hsub : sealedNames ⊆ reservedNames := by decide
    exact fun hsealed => hd.unreserved (hsub hsealed)
  have haccepted : (r.add d).1.accepted.toList = r.accepted.toList ++ [d] := by
    rw [hd.add_eq, Array.toList_push]
  rw [linkError?_accepted hunreserved, haccepted, ClassDeclaration.parentFault?,
    ClassDeclaration.parentFault?]
  cases d.parentName? with
  | none => rfl
  | some parent =>
    by_cases hself : parent = d.name.name
    · simp [hself, hopen]
    · simp [hself, Ne.symm hself]

/-- The errors that were there stay, but for a missing entry class that is there now, and what is
wrong with the new class comes among them. -/
theorem errors_add : ∃ before after,
    (r.analyze.errors.filter fun e =>
      ¬ (d.name.name = r.entryClass ∧ e.fault = .missingEntry r.entryClass)) = before ++ after ∧
    (r.add d).1.analyze.errors =
      before ++ (ClassDeclaration.ownError? r.accepted.toList d).toList ++ after := by
  have herrors : (r.add d).1.errors = r.errors := by rw [hd.add_eq]
  have hkept : (r.analyze.errors.filter fun e =>
      ¬ (d.name.name = r.entryClass ∧ e.fault = .missingEntry r.entryClass)) =
      r.errors.toList ++ r.linkErrors ++ r.cycleErrors ++ (r.add d).1.entryErrors := by
    have hothers : ((r.errors.toList ++ r.linkErrors ++ r.cycleErrors).filter fun e =>
        ¬ (d.name.name = r.entryClass ∧ e.fault = .missingEntry r.entryClass)) =
        r.errors.toList ++ r.linkErrors ++ r.cycleErrors := by
      refine List.filter_eq_self.2 fun e he => decide_eq_true ?_
      exact fun h => hr.fault_ne_missingEntry he _ h.2
    rw [analyze, List.filter_append, hothers, hd.entryErrors_add]
    by_cases hname : d.name.name = r.entryClass
    · simp only [entryErrors, hname]
      split <;> simp
    · simp [hname]
  rw [hkept, analyze, herrors, hd.linkErrors_add, hd.cycleErrors_add hr, hd.linkError?_add,
    ClassDeclaration.ownError?]
  by_cases hself : d.parentName? = some d.name.name
  · refine ⟨r.errors.toList ++ r.linkErrors ++ r.cycleErrors, (r.add d).1.entryErrors, rfl, ?_⟩
    simp [hself]
  · refine ⟨r.errors.toList ++ r.linkErrors, r.cycleErrors ++ (r.add d).1.entryErrors,
      by simp, ?_⟩
    simp [hself]

end Hierarchies

end Unrelated

end Registry

/-- A declaration may come after a program with a new name that no accepted declaration names as its
parent. Every class of the program then keeps its declaration, its index, its parent and whether it
is rooted, its superclasses, root path and layout, and how it conforms to and joins with the others.
Children stay as they are, but for the new class, which becomes the last child of its parent. The
errors stay in their order, but for a missing entry class whose name the declaration bears, and at
most one error joins them: what is wrong with the parent of the new class, or that the class is its
own parent. -/
theorem unrelated_class_added (entryClass : String) {ds : List ClassDeclaration}
    {d : ClassDeclaration} (hreserved : d.name.name ∉ reservedNames)
    (hregistered : ∀ e ∈ ClassDeclaration.accepted ds, e.name.name ≠ d.name.name)
    (hnamed : ∀ e ∈ ClassDeclaration.accepted ds, e.parentName? ≠ some d.name.name) :
    let a := Analysis.build entryClass ds
    let b := Analysis.build entryClass (ds ++ [d])
    let g := a.hierarchy
    let h := b.hierarchy
    h.size = g.size + 1 ∧ h.declaration? g.size = some d ∧
    (∀ c < g.size,
      h.declaration? c = g.declaration? c ∧
      g.lookup (g.nameOf c) = .ok c ∧ h.lookup (g.nameOf c) = .ok c ∧
      h.parent? c = g.parent? c ∧
      h.isRooted c = g.isRooted c ∧
      h.superclassNames (g.nameOf c) = g.superclassNames (g.nameOf c) ∧
      h.rootPath c = g.rootPath c ∧
      Layout.compute h (g.nameOf c) = Layout.compute g (g.nameOf c) ∧
      (∀ c' < g.size, h.conforms c c' = g.conforms c c' ∧ h.join c c' = g.join c c') ∧
      h.children c = g.children c ++ if h.parent? g.size = some c then [g.size] else []) ∧
    ∃ before after,
      (a.errors.filter fun e =>
        ¬ (d.name.name = entryClass ∧ e.fault = .missingEntry entryClass)) = before ++ after ∧
      b.errors = before ++
        (ClassDeclaration.ownError? (ClassDeclaration.accepted ds) d).toList ++ after := by
  intro a b g h
  have hr : (Registry.addAll { entryClass } ds).WellFormed :=
    Analysis.wellFormed_registry entryClass ds
  have haccepted := Registry.accepted_addAll entryClass ds
  have hd : (Registry.addAll { entryClass } ds).Unrelated d :=
    ⟨hreserved, fun e he => hregistered e (haccepted ▸ Array.mem_toList_iff.2 he),
      fun e he => hnamed e (haccepted ▸ Array.mem_toList_iff.2 he)⟩
  have hb : b = ((Registry.addAll { entryClass } ds).add d).1.analyze :=
    congrArg Registry.analyze (Registry.addAll_append_singleton _ ds d)
  have hh' : h = ((Registry.addAll { entryClass } ds).add d).1.hierarchy :=
    congrArg Analysis.hierarchy hb
  have hg : g.WellFormed := hr.hierarchy
  have hh : h.WellFormed := Analysis.wellFormed_build entryClass (ds ++ [d])
  have hgh : g.Extends h := hh' ▸ hd.extends_add hr
  refine ⟨hh' ▸ hd.size_hierarchy_add, hh' ▸ hd.declaration?_add_size, fun c hc => ?_, ?_⟩
  · exact ⟨hgh.declaration? hc, hg.lookup_nameOf hc, hgh.lookup hh hc, hgh.parent? hg hc,
      hgh.isRooted hg hc, hgh.superclassNames hg hh hc, hgh.rootPath hg hc, hgh.compute hg hh hc,
      fun c' hc' => ⟨hgh.conforms hg hh hc, hgh.join hg hc hc'⟩, hh' ▸ hd.children_add hr c⟩
  · have herrors := hd.errors_add hr
    rw [Registry.entryClass_addAll, haccepted] at herrors
    rw [hb]
    exact herrors

/-- `A` and `B` descend from each other, `Tail` leads to `A` and `Side` to `B`. The parent of
`Orphan` is missing. -/
def ringedProgram : List ClassDeclaration :=
  [.inheriting (.named "A") "B", .inheriting (.named "B") "A", .inheriting (.named "Tail") "A",
    .inheriting (.named "Side") "B", .inheriting (.named "Orphan") "Missing"]

/-- The entry class, declared as a child of `Tail`, changes nothing about how `Tail` and `Side` meet
on the cycle, and is no longer missing. -/
theorem main_added_to_ringedProgram :
    let d : ClassDeclaration := .inheriting (.named "Main") "Tail"
    let h := (Analysis.build "Main" (ringedProgram ++ [d])).hierarchy
    d.name.name ∉ reservedNames ∧
    (∀ e ∈ ClassDeclaration.accepted ringedProgram, e.name.name ≠ d.name.name) ∧
    (∀ e ∈ ClassDeclaration.accepted ringedProgram, e.parentName? ≠ some d.name.name) ∧
    h.join 7 8 = .ok 6 ∧ h.superclassNames "Tail" = .ok ["A", "B"] ∧ h.children 7 = [10] ∧
    ∃ before after,
      ((Analysis.build "Main" ringedProgram).errors.filter fun e =>
        ¬ (d.name.name = "Main" ∧ e.fault = .missingEntry "Main")) = before ++ after ∧
      (Analysis.build "Main" (ringedProgram ++ [d])).errors = before ++ after := by
  intro d _
  have hreserved : d.name.name ∉ reservedNames := by decide +kernel
  have hregistered : ∀ e ∈ ClassDeclaration.accepted ringedProgram, e.name.name ≠ d.name.name := by
    decide +kernel
  have hnamed : ∀ e ∈ ClassDeclaration.accepted ringedProgram,
      e.parentName? ≠ some d.name.name := by decide +kernel
  obtain ⟨_, _, hclasses, before, after, hold, hnew⟩ :=
    unrelated_class_added "Main" hreserved hregistered hnamed
  obtain ⟨_, _, _, _, _, hsuper, _, _, hpairs, hchildren⟩ := hclasses 7 (by decide +kernel)
  have hname : (Analysis.build "Main" ringedProgram).hierarchy.nameOf 7 = "Tail" := by
    decide +kernel
  have hown : ClassDeclaration.ownError? (ClassDeclaration.accepted ringedProgram) d = none := by
    decide +kernel
  refine ⟨hreserved, hregistered, hnamed, ?_, ?_, ?_, before, after, hold, ?_⟩
  · exact (hpairs 8 (by decide +kernel)).2.trans (by decide +kernel)
  · rw [← hname]
    exact hsuper.trans (by decide +kernel)
  · exact hchildren.trans (by decide +kernel)
  · rw [hnew, hown, Option.toList_none, List.append_nil]

end CoolHierarchy
