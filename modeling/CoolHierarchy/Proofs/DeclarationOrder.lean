import CoolHierarchy.Proofs.ErrorList
import CoolHierarchy.Proofs.Renumbering

/-!
# The order of declarations

Programs with the same declarations in another order register the same classes under other indices,
as long as no name is declared twice (`renumbering_of_perm`). So they get the same answers, and the
same errors but for the order and for the class at which a cycle is entered.

* `order_irrelevant`: what two such programs agree on.
-/

namespace CoolHierarchy

namespace ClassDeclaration

variable {d : ClassDeclaration} {ds ds' : List ClassDeclaration}

/-- No name is declared twice, unless it is reserved anyway. -/
def DistinctNames (ds : List ClassDeclaration) : Prop :=
  ds.Pairwise fun d e => d.name.name = e.name.name → d.name.name ∈ reservedNames

instance (ds : List ClassDeclaration) : Decidable (DistinctNames ds) :=
  inferInstanceAs (Decidable (ds.Pairwise _))

theorem DistinctNames.perm (h : DistinctNames ds) (hperm : ds.Perm ds') : DistinctNames ds' := by
  refine (hperm.pairwise_iff ?_).1 h
  intro d e hde hname
  rw [hname]
  exact hde hname.symm

/-- Where no name is declared twice, what is not reserved is accepted. -/
theorem DistinctNames.accepted_eq (h : DistinctNames ds) :
    accepted ds = ds.filter fun d => d.name.name ∉ reservedNames := by
  induction ds with
  | nil => rfl
  | cons d ds ih =>
    obtain ⟨hd, hds⟩ := List.pairwise_cons.1 h
    rw [accepted, ih hds]
    by_cases hres : d.name.name ∈ reservedNames
    · simp [hres]
    · rw [if_neg hres, List.filter_cons_of_pos (by simpa using hres), List.filter_eq_self.2]
      intro e he
      exact decide_eq_true fun hname => hres (hd e (List.mem_of_mem_filter he) hname.symm)

/-- Where no name is declared twice, only what is reserved is refused. -/
theorem DistinctNames.nameFault?_eq (h : DistinctNames (ds ++ [d])) :
    nameFault? ds d =
      if d.name.name ∈ reservedNames then some (.reservedName d.name.name) else none := by
  obtain ⟨hds, _, hlast⟩ := List.pairwise_append.1 h
  rw [nameFault?]
  split
  · rfl
  · next hres =>
    rw [if_neg]
    rintro ⟨e, he, hname⟩
    rw [DistinctNames.accepted_eq hds] at he
    have heres := hlast e (List.mem_of_mem_filter he) d List.mem_cons_self hname
    rw [hname] at heres
    exact hres heres

/-- Whether a parent can be linked depends on what is declared, not on where. -/
theorem parentFault?_congr (h : ∀ d, d ∈ ds ↔ d ∈ ds') (d : ClassDeclaration) :
    parentFault? ds d = parentFault? ds' d := by
  simp only [parentFault?, h]

end ClassDeclaration

namespace Registry

variable {r r' : Registry} {c : ClassIndex} {d : ClassDeclaration}

/-! ## Registries with the same classes -/

/-- The index in another registry of what has an index in this one. -/
def renumber (r r' : Registry) (c : ClassIndex) : ClassIndex :=
  (r'.indexOf? (r.hierarchy.nameOf c)).getD c

section Classes

variable (hr' : r'.WellFormed) (hclasses : r.classes.toList.Perm r'.classes.toList)
include hr' hclasses

theorem getElem?_renumber (hd : r.classes[c]? = some d) :
    r'.classes[renumber r r' c]? = some d ∧ r'.indexOf? d.name.name = some (renumber r r' c) := by
  have hmem : d ∈ r'.classes.toList :=
    hclasses.mem_iff.1 (Array.mem_toList_iff.2 (Array.mem_of_getElem? hd))
  obtain ⟨j, hj⟩ := Array.mem_iff_getElem?.1 (Array.mem_toList_iff.1 hmem)
  have hindex : r'.indexOf? d.name.name = some j :=
    ClassDeclaration.indexIn?_of_getElem? hr'.names_nodup hj
  have hname : r.hierarchy.nameOf c = d.name.name := Hierarchy.nameOf_of_declaration? hd
  have hc : renumber r r' c = j := by rw [renumber, hname, hindex, Option.getD_some]
  rw [hc]
  exact ⟨hj, hindex⟩

theorem indexOf?_renumber (name : String) :
    r'.indexOf? name = (r.indexOf? name).map (renumber r r') := by
  cases hc : r.indexOf? name with
  | some c =>
    obtain ⟨d, hd, rfl⟩ := ClassDeclaration.exists_of_indexIn? hc
    exact (getElem?_renumber hr' hclasses hd).2
  | none =>
    refine ClassDeclaration.indexIn?_eq_none_iff.2 fun d hd => ?_
    have hmem : d ∈ r.classes.toList := hclasses.mem_iff.2 (Array.mem_toList_iff.2 hd)
    exact ClassDeclaration.indexIn?_eq_none_iff.1 hc d (Array.mem_toList_iff.1 hmem)

/-- A class is linked to the same parent, under its new index. -/
theorem link?_renumber (d : ClassDeclaration) :
    r'.link? d = (r.link? d).map (renumber r r') := by
  rw [link?, link?, resolveParent, resolveParent]
  cases d.effectiveParent? with
  | none => rfl
  | some parent =>
    by_cases hsealed : isSealedName parent = true
    · simp only [if_pos hsealed]
      rfl
    · simp only [if_neg hsealed, indexOf?_renumber hr' hclasses parent]
      cases r.indexOf? parent <;> rfl

theorem renumbering : r.hierarchy.Renumbering r'.hierarchy (renumber r r') where
  size_eq := by
    have hlen := hclasses.length_eq
    rw [Array.length_toList, Array.length_toList] at hlen
    exact hlen.symm
  root := by
    have hindex := (getElem?_renumber hr' hclasses (classes_getElem?_builtin r .object)).2
    have hroot : r'.indexOf? Builtin.object.declaration.name.name = some Links.root :=
      ClassDeclaration.indexIn?_of_getElem? hr'.names_nodup (classes_getElem?_builtin r' .object)
    rw [hroot] at hindex
    exact (Option.some.inj hindex).symm
  lt_size := by
    intro c hc
    obtain ⟨d, hd⟩ := Hierarchy.exists_declaration hc
    exact Hierarchy.lt_size_of_declaration? (getElem?_renumber hr' hclasses hd).1
  nameOf := by
    intro c hc
    obtain ⟨d, hd⟩ := Hierarchy.exists_declaration hc
    rw [Hierarchy.nameOf_of_declaration? hd]
    exact Hierarchy.nameOf_of_declaration? (getElem?_renumber hr' hclasses hd).1
  parent? := by
    intro c hc
    obtain ⟨d, hd⟩ := Hierarchy.exists_declaration hc
    rw [parent?_hierarchy_of_getElem? hd,
      parent?_hierarchy_of_getElem? (getElem?_renumber hr' hclasses hd).1,
      link?_renumber hr' hclasses]

theorem declaration?_renumber (hc : c < r.hierarchy.size) :
    r'.hierarchy.declaration? (renumber r r' c) = r.hierarchy.declaration? c := by
  obtain ⟨d, hd⟩ := Hierarchy.exists_declaration hc
  exact (getElem?_renumber hr' hclasses hd).1.trans hd.symm

end Classes

/-! ## Programs with the same declarations -/

section Programs

variable {ds ds' : List ClassDeclaration} (entryClass : String)

/-- Where no name is declared twice, a declaration is refused for nothing but its own name. -/
theorem errors_addAll_of_distinct (h : ClassDeclaration.DistinctNames ds) :
    (addAll { entryClass } ds).errors.toList = ds.filterMap fun d =>
      (if d.name.name ∈ reservedNames then some (.reservedName d.name.name) else none).map
        d.blame := by
  have hplaces (f : ClassDeclaration → Option HierarchyError) :
      ds.filterMap f = ds.zipIdx.filterMap (f ∘ Prod.fst) := by
    rw [← List.filterMap_map, List.zipIdx_map_fst]
  rw [(addAll_spec entryClass ds).2, hplaces]
  refine List.filterMap_congr ?_
  rintro ⟨d, i⟩ hd
  have hi := List.mk_mem_zipIdx_iff_getElem?.1 hd
  have hupto : ds.take i ++ [d] = ds.take (i + 1) := by
    rw [List.take_add_one, hi]
    rfl
  have hdistinct : ClassDeclaration.DistinctNames (ds.take i ++ [d]) := by
    rw [hupto]
    exact h.sublist (List.take_sublist _ _)
  simp only [hdistinct.nameFault?_eq, Function.comp_apply]

variable (hperm : ds.Perm ds') (hnames : ClassDeclaration.DistinctNames ds)
include hperm hnames

theorem accepted_perm : (ClassDeclaration.accepted ds).Perm (ClassDeclaration.accepted ds') := by
  rw [hnames.accepted_eq, (hnames.perm hperm).accepted_eq]
  exact hperm.filter _

theorem classes_perm :
    (addAll { entryClass } ds).classes.toList.Perm (addAll { entryClass } ds').classes.toList := by
  rw [classes, classes, Array.toList_append, Array.toList_append, accepted_addAll, accepted_addAll]
  exact (accepted_perm hperm hnames).append_left _

theorem errors_perm :
    (addAll { entryClass } ds).errors.toList.Perm (addAll { entryClass } ds').errors.toList := by
  rw [errors_addAll_of_distinct _ hnames, errors_addAll_of_distinct _ (hnames.perm hperm)]
  exact hperm.filterMap _

theorem linkErrors_perm :
    (addAll { entryClass } ds).linkErrors.Perm (addAll { entryClass } ds').linkErrors := by
  rw [(Analysis.wellFormed_registry entryClass ds).linkErrors_eq,
    (Analysis.wellFormed_registry entryClass ds').linkErrors_eq, accepted_addAll, accepted_addAll]
  have haccepted := accepted_perm hperm hnames
  have hparent : ∀ d, ClassDeclaration.parentFault? (ClassDeclaration.accepted ds) d =
      ClassDeclaration.parentFault? (ClassDeclaration.accepted ds') d :=
    ClassDeclaration.parentFault?_congr fun _ => haccepted.mem_iff
  simp only [hparent]
  exact haccepted.filterMap _

theorem entryErrors_eq :
    (addAll { entryClass } ds).entryErrors = (addAll { entryClass } ds').entryErrors := by
  simp only [entryErrors_addAll, (accepted_perm hperm hnames).mem_iff]

end Programs

end Registry

/-- Programs that differ in the order of their declarations only, where no name is declared twice,
register the same names and get the same answers: the same parents, rooted classes, superclasses,
root paths, subtypes, joins and layouts, and the same children in some order. Their errors are the
same in some order, where cycles are the same but for the class that they are entered at. -/
theorem order_irrelevant (entryClass : String) {ds ds' : List ClassDeclaration}
    (hperm : ds.Perm ds') (hnames : ClassDeclaration.DistinctNames ds) :
    let a := Analysis.build entryClass ds
    let b := Analysis.build entryClass ds'
    let g := a.hierarchy
    let h := b.hierarchy
    g.names.Perm h.names ∧
    (∀ name,
      g.parentNameOf name = h.parentNameOf name ∧
      (g.lookup name).map g.isRooted = (h.lookup name).map h.isRooted ∧
      g.superclassNames name = h.superclassNames name ∧
      g.rootPathNames name = h.rootPathNames name ∧
      Layout.compute g name = Layout.compute h name ∧
      (g.childNames name).map Multiset.ofList = (h.childNames name).map Multiset.ofList) ∧
    (∀ left right,
      g.conformsByName left right = h.conformsByName left right ∧
      g.joinByName left right = h.joinByName left right) ∧
    (a.errors.filter fun e => e.cyclePath? = none).Perm
      (b.errors.filter fun e => e.cyclePath? = none) ∧
    ((a.errors.filterMap HierarchyError.cyclePath?).map Cycle.ofList).Perm
      ((b.errors.filterMap HierarchyError.cyclePath?).map Cycle.ofList) := by
  intro a b g h
  have hr : (Registry.addAll { entryClass } ds).WellFormed :=
    Analysis.wellFormed_registry entryClass ds
  have hr' : (Registry.addAll { entryClass } ds').WellFormed :=
    Analysis.wellFormed_registry entryClass ds'
  have hg : g.WellFormed := hr.hierarchy
  have hh : h.WellFormed := hr'.hierarchy
  have hclasses := Registry.classes_perm entryClass hperm hnames
  have hf : g.Renumbering h (Registry.renumber _ _) := Registry.renumbering hr' hclasses
  refine ⟨hclasses.map _, fun name => ⟨?_, ?_, ?_, ?_, ?_, ?_⟩, fun left right => ⟨?_, ?_⟩, ?_, ?_⟩
  · exact (hf.parentNameOf hg hh name).symm
  · exact (hf.isRootedByName hg hh name).symm
  · exact (hf.superclassNames hg hh name).symm
  · exact (hf.rootPathNames hg hh name).symm
  · exact (hf.compute hg hh (fun _ => Registry.declaration?_renumber hr' hclasses) name).symm
  · exact (hf.childNames hg hh name).symm
  · exact (hf.conformsByName hg hh left right).symm
  · exact (hf.joinByName hg hh left right).symm
  · show (Registry.analyze _).errors.filter _ |>.Perm ((Registry.analyze _).errors.filter _)
    rw [hr.otherErrors_analyze, hr'.otherErrors_analyze,
      Registry.entryErrors_eq entryClass hperm hnames]
    exact ((Registry.errors_perm entryClass hperm hnames).append
      (Registry.linkErrors_perm entryClass hperm hnames)).append_right _
  · show ((Registry.analyze _).errors.filterMap _).map _ |>.Perm
      (((Registry.analyze _).errors.filterMap _).map _)
    rw [hr.cyclePaths_analyze, hr'.cyclePaths_analyze]
    exact hf.cyclePaths_perm hg hh (Links.areCycles_cycles _) (Links.areCycles_cycles _)

/-- `Tail` leads into a cycle at `A`, `Orphan` has no parent, and a reserved name is declared
twice. -/
def forwardProgram : List ClassDeclaration :=
  [.inheriting (.named "Tail") "A", .inheriting (.named "A") "B", .inheriting (.named "B") "A",
    .inheriting (.named "Side") "B", .inheriting (.named "Orphan") "Missing",
    .named "Int", .withMethod (.named "Int") "size" [] "Int"]

/-- Backwards the cycle is entered at `B` instead of `A`. `Tail` and `Side` meet where they met, and
there are as many other errors. -/
theorem order_irrelevant_forwardProgram :
    let a := Analysis.build "Main" forwardProgram
    let b := Analysis.build "Main" forwardProgram.reverse
    forwardProgram.Perm forwardProgram.reverse ∧ ClassDeclaration.DistinctNames forwardProgram ∧
    a.hierarchy.joinByName "Tail" "Side" = .ok "B" ∧
    b.hierarchy.joinByName "Tail" "Side" = .ok "B" ∧
    a.errors.filterMap HierarchyError.cyclePath? = [["A", "B"]] ∧
    b.errors.filterMap HierarchyError.cyclePath? = [["B", "A"]] ∧
    (a.errors.filter fun e => e.cyclePath? = none).Perm
      (b.errors.filter fun e => e.cyclePath? = none) := by
  intro a b
  have hperm : forwardProgram.Perm forwardProgram.reverse := (List.reverse_perm _).symm
  have hnames : ClassDeclaration.DistinctNames forwardProgram := by decide +kernel
  obtain ⟨_, _, hpairs, herrors, _⟩ := order_irrelevant "Main" hperm hnames
  have hjoin : a.hierarchy.joinByName "Tail" "Side" = .ok "B" := by decide +kernel
  exact ⟨hperm, hnames, hjoin, (hpairs "Tail" "Side").2.symm.trans hjoin, by decide +kernel,
    by decide +kernel, herrors⟩

end CoolHierarchy
