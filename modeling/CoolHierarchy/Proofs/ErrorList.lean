import CoolHierarchy.Proofs.CyclePath
import CoolHierarchy.Proofs.Linking

/-!
# The errors of a program

What an analysis reports can be read off from the declarations: which names are refused
(`nameFault?`), which declarations are accepted (`accepted`), whose parents can not be linked
(`parentFault?`), one error for each cycle (`ReportsCycle`), and whether the entry class is missing.

* `errors_build`: the error list of any program is these errors and no others, in this order.
-/

namespace CoolHierarchy

/-- The names of the basic classes. -/
def reservedNames : List String := ["Object", "IO", "String", "Int", "Bool"]

/-- The names of the classes that nothing may inherit from. -/
def sealedNames : List String := ["String", "Int", "Bool"]

theorem isReservedName_iff {name : String} : isReservedName name = true ↔ name ∈ reservedNames := by
  have hnames : reservedNames = Builtin.all.map Builtin.name := rfl
  simp only [isReservedName, Builtin.ofName?, List.find?_isSome, beq_iff_eq, hnames, List.mem_map]

theorem isSealedName_iff {name : String} : isSealedName name = true ↔ name ∈ sealedNames := by
  have hnames : sealedNames = (Builtin.all.filter Builtin.isSealed).map Builtin.name := rfl
  rw [isSealedName, Option.any_eq_true, hnames, List.mem_map]
  constructor
  · rintro ⟨b, hb, hsealed⟩
    have hmem : b ∈ Builtin.all := List.mem_of_find?_eq_some hb
    exact ⟨b, List.mem_filter.2 ⟨hmem, hsealed⟩, Builtin.name_eq_of_ofName? hb⟩
  · rintro ⟨b, hb, rfl⟩
    exact ⟨b, Builtin.ofName?_name b, (List.mem_filter.1 hb).2⟩

namespace ClassDeclaration

/-- A fault that a declaration is blamed for. -/
def blame (d : ClassDeclaration) (fault : Fault) : HierarchyError :=
  { fault, span := d.span }

/-- The declarations that a program registers: of each name that is not reserved the first one. -/
def accepted : List ClassDeclaration → List ClassDeclaration
  | [] => []
  | d :: ds =>
    if d.name.name ∈ reservedNames then accepted ds
    else d :: (accepted ds).filter fun e => e.name.name ≠ d.name.name

/-- Why a declaration that comes after others is refused. -/
def nameFault? (before : List ClassDeclaration) (d : ClassDeclaration) : Option Fault :=
  if d.name.name ∈ reservedNames then some (.reservedName d.name.name)
  else if ∃ e ∈ accepted before, e.name.name = d.name.name then some (.duplicateClass d.name.name)
  else none

/-- Why a declaration among the accepted ones is not linked to the parent that it declares. -/
def parentFault? (declared : List ClassDeclaration) (d : ClassDeclaration) : Option Fault :=
  match d.parentName? with
  | none => none
  | some parent =>
    if parent ∈ sealedNames then some (.sealedParent d.name.name parent)
    else if parent ∈ reservedNames ∨ ∃ e ∈ declared, e.name.name = parent then none
    else some (.undeclaredParent d.name.name parent)

theorem nameFault?_eq_none_iff {before : List ClassDeclaration} {d : ClassDeclaration} :
    nameFault? before d = none ↔
      d.name.name ∉ reservedNames ∧ ∀ e ∈ accepted before, e.name.name ≠ d.name.name := by
  rw [nameFault?]
  split
  · next hres => simp [hres]
  · next hres =>
    split
    · next hdup => simpa [hres] using hdup
    · next hdup => simpa [hres] using hdup

theorem nameFault?_cons_eq_none_iff {before : List ClassDeclaration} {c d : ClassDeclaration}
    (hc : c.name.name ∉ reservedNames) :
    nameFault? (c :: before) d = none ↔
      c.name.name ≠ d.name.name ∧ nameFault? before d = none := by
  simp only [nameFault?_eq_none_iff, accepted, if_neg hc, List.forall_mem_cons, List.mem_filter,
    decide_eq_true_eq]
  constructor
  · rintro ⟨hd, hcd, hothers⟩
    refine ⟨hcd, hd, fun e he hname => hothers e ⟨he, ?_⟩ hname⟩
    rw [hname]
    exact Ne.symm hcd
  · rintro ⟨hcd, hd, hothers⟩
    exact ⟨hd, hcd, fun e he => hothers e he.1⟩

/-- A declaration that comes last is accepted when nothing is wrong with its name. -/
theorem accepted_append_singleton (ds : List ClassDeclaration) (d : ClassDeclaration) :
    accepted (ds ++ [d]) = accepted ds ++ if nameFault? ds d = none then [d] else [] := by
  induction ds with
  | nil => simp [accepted, nameFault?_eq_none_iff]
  | cons c ds ih =>
    rw [List.cons_append, accepted, accepted, ih]
    by_cases hc : c.name.name ∈ reservedNames
    · simp [hc, nameFault?_eq_none_iff, accepted]
    · -- The last one is dropped with the later ones of its name when `c` bears the same name.
      rw [if_neg hc, if_neg hc, List.filter_append, List.cons_append]
      congr 2
      by_cases hname : c.name.name = d.name.name
      · rw [if_neg (fun h => ((nameFault?_cons_eq_none_iff hc).1 h).1 hname)]
        split <;> simp [hname]
      · simp only [nameFault?_cons_eq_none_iff hc, ne_eq, hname, not_false_eq_true, true_and]
        split
        · simp [Ne.symm hname]
        · rfl

end ClassDeclaration

namespace Registry

variable {r : Registry} {d : ClassDeclaration} {entryClass : String} {ds : List ClassDeclaration}

/-! ## Registration -/

theorem addAll_append_singleton (r : Registry) (ds : List ClassDeclaration)
    (d : ClassDeclaration) : r.addAll (ds ++ [d]) = ((r.addAll ds).add d).1 := by
  rw [addAll, List.foldl_append]
  rfl

theorem hasClass_iff {name : String} :
    r.hasClass name = true ↔ name ∈ reservedNames ∨ ∃ d ∈ r.accepted, d.name.name = name := by
  rw [← Bool.not_eq_false, hasClass_eq_false_iff]
  simp only [mem_classes, not_forall, Classical.not_not, exists_prop]
  constructor
  · rintro ⟨d, ⟨b, rfl⟩ | hd, rfl⟩
    · left
      cases b <;> decide
    · exact .inr ⟨d, hd, rfl⟩
  · rintro (h | ⟨d, hd, rfl⟩)
    · obtain ⟨b, hb⟩ := Option.isSome_iff_exists.1 (isReservedName_iff.2 h)
      exact ⟨b.declaration, .inl ⟨b, rfl⟩, by
        rw [Builtin.declaration_name, Builtin.name_eq_of_ofName? hb]⟩
    · exact ⟨d, .inr hd, rfl⟩

/-- A registry that has accepted what comes before refuses what is at fault after that. -/
theorem refusal?_eq (hr : r.accepted.toList = ClassDeclaration.accepted ds)
    (d : ClassDeclaration) : r.refusal? d = ClassDeclaration.nameFault? ds d := by
  rw [refusal?, ClassDeclaration.nameFault?]
  by_cases hres : d.name.name ∈ reservedNames
  · rw [if_pos (isReservedName_iff.2 hres), if_pos hres]
  · have hdup : r.hasClass d.name.name = true ↔
        ∃ e ∈ ClassDeclaration.accepted ds, e.name.name = d.name.name := by
      simp only [hasClass_iff, hres, false_or, ← hr, Array.mem_toList_iff]
    simp only [if_neg hres, if_neg (mt isReservedName_iff.1 hres), hdup]

/-- What is accepted, and an error for each refusal, after each declaration in turn. -/
theorem addAll_spec (entryClass : String) (ds : List ClassDeclaration) :
    (addAll { entryClass } ds).accepted.toList = ClassDeclaration.accepted ds ∧
    (addAll { entryClass } ds).errors.toList = ds.zipIdx.filterMap fun (d, i) =>
      (ClassDeclaration.nameFault? (ds.take i) d).map d.blame := by
  induction ds using List.reverseRecOn with
  | nil => exact ⟨rfl, rfl⟩
  | append_singleton ds d ih =>
    obtain ⟨haccepted, herrors⟩ := ih
    -- The declarations before the last one are judged as they were without it.
    have hbefore : (ds.zipIdx.filterMap fun (e, i) =>
        (ClassDeclaration.nameFault? ((ds ++ [d]).take i) e).map e.blame) =
        (addAll { entryClass } ds).errors.toList := by
      rw [herrors]
      refine List.filterMap_congr ?_
      rintro ⟨e, i⟩ he
      have hi : i ≤ ds.length :=
        Nat.le_of_lt (List.getElem?_eq_some_iff.1 (List.mk_mem_zipIdx_iff_getElem?.1 he)).1
      simp only [List.take_append_of_le_length hi]
    rw [addAll_append_singleton, ClassDeclaration.accepted_append_singleton, List.zipIdx_append,
      List.filterMap_append, hbefore]
    have hrefusal := refusal?_eq haccepted d
    cases hfault : ClassDeclaration.nameFault? ds d with
    | none =>
      rw [add_of_no_refusal (hrefusal.trans hfault)]
      simp [haccepted, hfault]
    | some fault =>
      rw [add_of_refusal (hrefusal.trans hfault)]
      simp [haccepted, hfault, ClassDeclaration.blame]

theorem accepted_addAll (entryClass : String) (ds : List ClassDeclaration) :
    (addAll { entryClass } ds).accepted.toList = ClassDeclaration.accepted ds :=
  (addAll_spec entryClass ds).1

@[simp] theorem entryClass_addAll (r : Registry) (ds : List ClassDeclaration) :
    (r.addAll ds).entryClass = r.entryClass := by
  induction ds using List.reverseRecOn with
  | nil => rfl
  | append_singleton ds d ih => rw [addAll_append_singleton, entryClass_add, ih]

/-! ## Parents -/

/-- A class that descends from something is linked to it, unless that is sealed or not there. -/
theorem linkError?_of_parent {parent : String} (h : d.effectiveParent? = some parent) :
    r.linkError? d =
      (if parent ∈ sealedNames then some (.sealedParent d.name.name parent)
        else if r.hasClass parent = true then none
        else some (.undeclaredParent d.name.name parent) : Option Fault).map d.blame := by
  by_cases hsealed : parent ∈ sealedNames
  · have hparent : r.resolveParent d = .error (.sealedParent d.name.name parent) := by
      simp [resolveParent, h, isSealedName_iff, hsealed]
    rw [linkError?, hparent, if_pos hsealed]
    rfl
  · rw [if_neg hsealed, hasClass]
    cases hindex : r.indexOf? parent with
    | none =>
      have hparent : r.resolveParent d = .error (.undeclaredParent d.name.name parent) := by
        simp [resolveParent, h, isSealedName_iff, hsealed, hindex]
      rw [linkError?, hparent]
      rfl
    | some p =>
      have hparent : r.resolveParent d = .ok (some p) := by
        simp [resolveParent, h, isSealedName_iff, hsealed, hindex]
      rw [linkError?, hparent]
      rfl

theorem linkError?_of_root (h : d.effectiveParent? = none ∨ d.effectiveParent? = some rootName) :
    r.linkError? d = none := by
  rcases h with h | h
  · rw [linkError?, resolveParent_of_top h]
  · have hclass : r.hasClass rootName = true := hasClass_iff.2 (.inl (by decide))
    have hopen : rootName ∉ sealedNames := by decide
    rw [linkError?_of_parent h, if_neg hopen, if_pos hclass]
    rfl

/-- The basic classes are linked without fault. -/
theorem linkError?_builtin (r : Registry) (b : Builtin) : r.linkError? b.declaration = none := by
  apply linkError?_of_root
  cases b with
  | object => exact .inl (by decide)
  | io | string | int | bool => exact .inr (by decide)

theorem linkError?_accepted (hd : isReservedName d.name.name = false) :
    r.linkError? d = (ClassDeclaration.parentFault? r.accepted.toList d).map d.blame := by
  have hroot : d.name.name ≠ rootName := by
    intro hname
    rw [hname] at hd
    exact absurd hd (by decide)
  have heffective := ClassDeclaration.effectiveParent?_of_ne_root hroot
  cases hparent : d.parentName? with
  | none =>
    rw [hparent] at heffective
    rw [linkError?_of_root (.inr heffective), ClassDeclaration.parentFault?, hparent]
    rfl
  | some parent =>
    rw [hparent] at heffective
    simp only [linkError?_of_parent heffective, ClassDeclaration.parentFault?, hparent,
      hasClass_iff, Array.mem_toList_iff]
    rfl

/-- The errors about parents are those of the accepted declarations. -/
theorem WellFormed.linkErrors_eq (hr : r.WellFormed) :
    r.linkErrors = r.accepted.toList.filterMap fun d =>
      (ClassDeclaration.parentFault? r.accepted.toList d).map d.blame := by
  have hbasic : (Builtin.all.map Builtin.declaration).filterMap r.linkError? = [] := by
    rw [List.filterMap_map, List.filterMap_eq_nil_iff]
    intro b _
    exact linkError?_builtin r b
  rw [linkErrors, classes, Array.toList_append, List.filterMap_append, hbasic, List.nil_append]
  refine List.filterMap_congr ?_
  intro d hd
  exact linkError?_accepted (hr.accepted_unreserved d (Array.mem_toList_iff.1 hd))

/-! ## Cycles and the entry class -/

end Registry

/-- An error names the classes of a cycle, at the place of the first. -/
structure ReportsCycle (g : Hierarchy) (cycle : List ClassIndex) (e : HierarchyError) : Prop where
  fault : e.fault = .inheritanceCycle (cycle.map g.nameOf)
  span : ∃ c d, cycle.head? = some c ∧ g.declaration? c = some d ∧ e.span = d.span

namespace Registry

variable {r : Registry}

theorem WellFormed.reportsCycle (hr : r.WellFormed) {cycle : List ClassIndex}
    (h : r.hierarchy.links.IsCycle cycle) :
    ReportsCycle r.hierarchy cycle (cycleError r.hierarchy cycle) := by
  obtain ⟨c, rest, rfl⟩ := List.exists_cons_of_ne_nil h.ne_nil
  have hc := hr.hierarchy.lt_size_of_below (h.onCycle List.mem_cons_self)
  obtain ⟨d, hd⟩ := Hierarchy.exists_declaration hc
  refine ⟨rfl, c, d, rfl, hd, ?_⟩
  simp [cycleError, hd]

theorem WellFormed.forall₂_cycleErrors (hr : r.WellFormed) :
    List.Forall₂ (ReportsCycle r.hierarchy) r.hierarchy.links.cycles r.cycleErrors := by
  rw [cycleErrors, List.forall₂_map_right_iff, List.forall₂_same]
  intro cycle hcycle
  exact hr.reportsCycle ((Links.areCycles_cycles _).isCycle cycle hcycle)

theorem entryErrors_addAll (entryClass : String) (ds : List ClassDeclaration) :
    (addAll { entryClass } ds).entryErrors =
      if ∃ d ∈ ClassDeclaration.accepted ds, d.name.name = entryClass then []
      else [{ fault := .missingEntry entryClass, span := .origin }] := by
  have hentry : (addAll { entryClass } ds).hasEntryClass = true ↔
      ∃ d ∈ ClassDeclaration.accepted ds, d.name.name = entryClass := by
    simp only [hasEntryClass_eq_true_iff, entryClass_addAll, ← accepted_addAll entryClass ds,
      Array.mem_toList_iff]
  simp only [entryErrors, hentry, entryClass_addAll]

end Registry

/-! ## Which errors are about cycles -/

/-- The cycle that a fault is about. -/
def Fault.cyclePath? : Fault → Option (List String)
  | .inheritanceCycle path => some path
  | .duplicateClass _ | .reservedName _ | .sealedParent _ _ | .undeclaredParent _ _
  | .missingEntry _ => none

def HierarchyError.cyclePath? (e : HierarchyError) : Option (List String) :=
  e.fault.cyclePath?

theorem HierarchyError.cyclePath?_eq_some_iff {e : HierarchyError} {path : List String} :
    e.cyclePath? = some path ↔ e.fault = .inheritanceCycle path := by
  rw [cyclePath?]
  cases e.fault <;> simp [Fault.cyclePath?]

namespace Registry

variable {r : Registry} {e : HierarchyError}

theorem WellFormed.cyclePath?_errors (hr : r.WellFormed) (he : e ∈ r.errors.toList) :
    e.cyclePath? = none := by
  obtain ⟨name, h | h⟩ := hr.errors_refusals e (Array.mem_toList_iff.1 he)
  · rw [HierarchyError.cyclePath?, h]
    rfl
  · rw [HierarchyError.cyclePath?, h]
    rfl

theorem cyclePath?_linkErrors (he : e ∈ r.linkErrors) : e.cyclePath? = none := by
  obtain ⟨d, _, he⟩ := List.mem_filterMap.1 he
  cases hparent : d.effectiveParent? with
  | none =>
    rw [linkError?_of_root (.inl hparent)] at he
    cases he
  | some parent =>
    rw [linkError?_of_parent hparent] at he
    obtain ⟨fault, hfault, rfl⟩ := Option.map_eq_some_iff.1 he
    split at hfault
    · cases hfault
      rfl
    · split at hfault
      · cases hfault
      · cases hfault
        rfl

theorem cyclePath?_entryErrors (he : e ∈ r.entryErrors) : e.cyclePath? = none := by
  rw [entryErrors] at he
  split at he
  · cases he
  · cases List.mem_singleton.1 he
    rfl

/-- The cycles that an analysis reports are those that the search lists. -/
theorem WellFormed.cyclePaths_analyze (hr : r.WellFormed) :
    r.analyze.errors.filterMap HierarchyError.cyclePath? =
      r.hierarchy.links.cycles.map fun cycle => cycle.map r.hierarchy.nameOf := by
  have hnames : r.errors.toList.filterMap HierarchyError.cyclePath? = [] :=
    List.filterMap_eq_nil_iff.2 fun _ => hr.cyclePath?_errors
  have hparents : r.linkErrors.filterMap HierarchyError.cyclePath? = [] :=
    List.filterMap_eq_nil_iff.2 fun _ => cyclePath?_linkErrors
  have hentry : r.entryErrors.filterMap HierarchyError.cyclePath? = [] :=
    List.filterMap_eq_nil_iff.2 fun _ => cyclePath?_entryErrors
  rw [analyze, List.filterMap_append, List.filterMap_append, List.filterMap_append, hnames,
    hparents, hentry, List.nil_append, List.nil_append, List.append_nil, cycleErrors, List.filterMap_map]
  exact congrFun List.filterMap_eq_map _

theorem WellFormed.exists_cycleError_iff (hr : r.WellFormed) {path : List String} :
    (∃ e ∈ r.analyze.errors, e.fault = .inheritanceCycle path) ↔
      ∃ cycle ∈ r.hierarchy.links.cycles, cycle.map r.hierarchy.nameOf = path := by
  have hpaths := List.mem_filterMap (l := r.analyze.errors) (f := HierarchyError.cyclePath?)
    (b := path)
  rw [hr.cyclePaths_analyze, List.mem_map] at hpaths
  simp only [hpaths, HierarchyError.cyclePath?_eq_some_iff]

/-- What is left without the errors about cycles. -/
theorem WellFormed.otherErrors_analyze (hr : r.WellFormed) :
    (r.analyze.errors.filter fun e => e.cyclePath? = none) =
      r.errors.toList ++ r.linkErrors ++ r.entryErrors := by
  have hnames : (r.errors.toList.filter fun e => e.cyclePath? = none) = r.errors.toList :=
    List.filter_eq_self.2 fun _ he => decide_eq_true (hr.cyclePath?_errors he)
  have hparents : (r.linkErrors.filter fun e => e.cyclePath? = none) = r.linkErrors :=
    List.filter_eq_self.2 fun _ he => decide_eq_true (cyclePath?_linkErrors he)
  have hentry : (r.entryErrors.filter fun e => e.cyclePath? = none) = r.entryErrors :=
    List.filter_eq_self.2 fun _ he => decide_eq_true (cyclePath?_entryErrors he)
  have hcycles : (r.cycleErrors.filter fun e => e.cyclePath? = none) = [] := by
    rw [List.filter_eq_nil_iff]
    intro e he
    obtain ⟨cycle, _, rfl⟩ := List.mem_map.1 he
    exact Bool.false_ne_true
  rw [analyze, List.filter_append, List.filter_append, List.filter_append, hnames, hparents, hentry,
    hcycles, List.append_nil]

end Registry

/-- The errors of any program. First come the refused declarations in the order of the input, then
the accepted declarations whose parents can not be linked in the order of registration, then the
cycles, each once, and last a missing entry class. There are no others. The cycles are those of the
links, and a link leads from every class but the root to the class that it declares as its parent, or
to the root if it declares none, unless that is sealed. -/
theorem errors_build (entryClass : String) (ds : List ClassDeclaration) :
    let g := (Analysis.build entryClass ds).hierarchy
    let accepted := ClassDeclaration.accepted ds
    g.classes.toList = Builtin.all.map Builtin.declaration ++ accepted ∧
    (∀ c p, g.links.parent? c = some p ↔ c ≠ Links.root ∧ ∃ d q, g.classes[c]? = some d ∧
      g.classes[p]? = some q ∧ q.name.name = d.parentName?.getD rootName ∧
      q.name.name ∉ sealedNames) ∧
    ∃ cycles cycleErrors, g.links.AreCycles cycles ∧
      List.Forall₂ (ReportsCycle g) cycles cycleErrors ∧
      (Analysis.build entryClass ds).errors =
        (ds.zipIdx.filterMap fun (d, i) =>
          (ClassDeclaration.nameFault? (ds.take i) d).map d.blame) ++
        (accepted.filterMap fun d => (ClassDeclaration.parentFault? accepted d).map d.blame) ++
        cycleErrors ++
        (if ∃ d ∈ accepted, d.name.name = entryClass then []
          else [{ fault := .missingEntry entryClass, span := .origin }]) := by
  intro g accepted
  have hr : (Registry.addAll { entryClass } ds).WellFormed :=
    Analysis.wellFormed_registry entryClass ds
  obtain ⟨haccepted, herrors⟩ := Registry.addAll_spec entryClass ds
  refine ⟨?_, fun c p => ?_, ?_⟩
  · show (Registry.addAll { entryClass } ds).classes.toList = _
    rw [Registry.classes, Array.toList_append, haccepted]
  · simp only [← isSealedName_iff, Bool.not_eq_true]
    exact hr.parent?_eq_some_iff
  · refine ⟨g.links.cycles, (Registry.addAll { entryClass } ds).cycleErrors,
      Links.areCycles_cycles g.links, hr.forall₂_cycleErrors, ?_⟩
    show (Registry.addAll { entryClass } ds).analyze.errors = _
    rw [Registry.analyze, herrors, hr.linkErrors_eq, haccepted, Registry.entryErrors_addAll]

end CoolHierarchy
