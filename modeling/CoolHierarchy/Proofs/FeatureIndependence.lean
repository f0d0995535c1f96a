import CoolHierarchy.Proofs.LayoutTable
import Mathlib.Data.List.Forall2
import Mathlib.Data.List.ReduceOption

/-!
# What a hierarchy reads of its declarations

Two runs on declarations that agree in their headers, which are the name and the name of the
parent, go the same way: every declaration is accepted or refused in both (`Registry.Alike`), every
parent is linked or refused in both, and so the hierarchies have one shape (`Hierarchy.SameShape`).
Of the features a layout reads the signatures on the path from the root, and of those the attributes
and the methods apart (`ClassDeclaration.SameSlots`).

* `features_do_not_interfere`: both for any program.
-/

namespace CoolHierarchy

/-! ## What two declarations have in common -/

namespace ClassDeclaration

/-- What registering and linking read of a declaration. -/
def header (d : ClassDeclaration) : String × Option String :=
  (d.name.name, d.parentName?)

/-- Two declarations with the same attributes and the same methods, each in their order. They may
have them in different places of the source, and differently mixed. -/
structure SameSlots (d d' : ClassDeclaration) : Prop where
  attributes : d.attributes.map (fun a => (a.name, a.typeName)) =
    d'.attributes.map fun a => (a.name, a.typeName)
  methods : d.methods.map (fun m => (m.name, m.formals, m.returnType)) =
    d'.methods.map fun m => (m.name, m.formals, m.returnType)

variable {d d' : ClassDeclaration}

theorem sameSlots_iff : d.SameSlots d' ↔
    d.attributes.map (fun a => (a.name, a.typeName)) =
        d'.attributes.map (fun a => (a.name, a.typeName)) ∧
      d.methods.map (fun m => (m.name, m.formals, m.returnType)) =
        d'.methods.map fun m => (m.name, m.formals, m.returnType) :=
  ⟨fun h => ⟨h.attributes, h.methods⟩, fun h => ⟨h.1, h.2⟩⟩

instance (d d' : ClassDeclaration) : Decidable (d.SameSlots d') :=
  decidable_of_iff' _ sameSlots_iff

theorem name_eq_of_header (h : d.header = d'.header) : d.name.name = d'.name.name :=
  congrArg Prod.fst h

theorem effectiveParent?_eq_of_header (h : d.header = d'.header) :
    d.effectiveParent? = d'.effectiveParent? := by
  have hparent : d.parentName? = d'.parentName? := congrArg Prod.snd h
  unfold effectiveParent?
  rw [hparent, name_eq_of_header h]

end ClassDeclaration

/-- Declarations that have the same headers, one by one. -/
def SameHeaders : List ClassDeclaration → List ClassDeclaration → Prop :=
  List.Forall₂ fun d d' => d.header = d'.header

theorem sameHeaders_iff {ds ds' : List ClassDeclaration} :
    SameHeaders ds ds' ↔ ds.map ClassDeclaration.header = ds'.map ClassDeclaration.header := by
  rw [SameHeaders, ← List.forall₂_eq_eq_eq, List.forall₂_map_left_iff, List.forall₂_map_right_iff]

/-- What is read off from headers is the same for both. -/
theorem SameHeaders.map_eq {ds ds' : List ClassDeclaration} {β : Type}
    {f f' : ClassDeclaration → β} (h : SameHeaders ds ds')
    (hf : ∀ d d', d.header = d'.header → f d = f' d') : ds.map f = ds'.map f' := by
  induction h with
  | nil => rfl
  | cons hd _ ih => rw [List.map_cons, List.map_cons, hf _ _ hd, ih]

theorem indexIn?_eq_findIdx? (classes : Array ClassDeclaration) (name : String) :
    ClassDeclaration.indexIn? classes name =
      (ClassDeclaration.namesOf classes).findIdx? (· == name) := by
  cases classes
  rw [ClassDeclaration.indexIn?, ClassDeclaration.namesOf, List.findIdx?_map,
    List.findIdx?_toArray]
  rfl

namespace Registry

/-- Two registries that have taken in declarations with the same headers, and refused others for the
same reasons. -/
structure Alike (r r' : Registry) : Prop where
  entryClass : r.entryClass = r'.entryClass
  accepted : SameHeaders r.accepted.toList r'.accepted.toList
  faults : r.errors.toList.map HierarchyError.fault = r'.errors.toList.map HierarchyError.fault

namespace Alike

variable {r r' : Registry} {d d' : ClassDeclaration} {ds ds' : List ClassDeclaration}

theorem classes (h : Alike r r') : SameHeaders r.classes.toList r'.classes.toList := by
  unfold Registry.classes
  rw [Array.toList_append, Array.toList_append]
  exact List.rel_append (List.forall₂_refl _) h.accepted

/-! ## Registering -/

theorem names (h : Alike r r') :
    ClassDeclaration.namesOf r.classes = ClassDeclaration.namesOf r'.classes :=
  h.classes.map_eq fun _ _ => ClassDeclaration.name_eq_of_header

theorem indexOf? (h : Alike r r') (name : String) : r.indexOf? name = r'.indexOf? name := by
  unfold Registry.indexOf?
  rw [indexIn?_eq_findIdx?, indexIn?_eq_findIdx?, h.names]

theorem hasEntryClass (h : Alike r r') : r.hasEntryClass = r'.hasEntryClass := by
  have hnames : r.accepted.toList.map (fun d => d.name.name) =
      r'.accepted.toList.map fun d => d.name.name :=
    h.accepted.map_eq fun _ _ => ClassDeclaration.name_eq_of_header
  have hany : ∀ r : Registry, r.hasEntryClass =
      (r.accepted.toList.map fun d => d.name.name).any (· == r.entryClass) := by
    intro r
    rw [Registry.hasEntryClass, List.any_map, Array.any_toList]
    rfl
  rw [hany r, hany r', hnames, h.entryClass]

theorem refusal? (h : Alike r r') (hd : d.header = d'.header) : r.refusal? d = r'.refusal? d' := by
  unfold Registry.refusal? hasClass
  rw [ClassDeclaration.name_eq_of_header hd, h.indexOf?]

/-- Both registries take in the next declaration, or both refuse it. -/
theorem add (h : Alike r r') (hd : d.header = d'.header) : Alike (r.add d).1 (r'.add d').1 := by
  have hrefusal := h.refusal? hd
  cases hr : r.refusal? d with
  | none =>
    rw [hr] at hrefusal
    rw [add_of_no_refusal hr, add_of_no_refusal hrefusal.symm]
    refine ⟨h.entryClass, ?_, h.faults⟩
    rw [Array.toList_push, Array.toList_push]
    exact List.rel_append h.accepted (.cons hd .nil)
  | some fault =>
    rw [hr] at hrefusal
    rw [add_of_refusal hr, add_of_refusal hrefusal.symm]
    refine ⟨h.entryClass, h.accepted, ?_⟩
    rw [Array.toList_push, Array.toList_push, List.map_append, List.map_append, h.faults]
    rfl

theorem addAll (h : Alike r r')
    (hds : SameHeaders ds ds') :
    Alike (r.addAll ds) (r'.addAll ds') := by
  unfold Registry.addAll
  induction hds generalizing r r' with
  | nil => exact h
  | cons hd _ ih => exact ih (h.add hd)

/-! ## Linking -/

theorem resolveParent (h : Alike r r') (hd : d.header = d'.header) :
    r.resolveParent d = r'.resolveParent d' := by
  unfold Registry.resolveParent
  simp only [ClassDeclaration.name_eq_of_header hd,
    ClassDeclaration.effectiveParent?_eq_of_header hd, h.indexOf?]

theorem links (h : Alike r r') : r.links = r'.links := by
  have hparents : r.classes.toList.map r.link? = r'.classes.toList.map r'.link? := by
    refine h.classes.map_eq fun d d' hd => ?_
    unfold Registry.link?
    rw [h.resolveParent hd]
  unfold Registry.links
  congr 1
  apply Array.toList_inj.1
  rw [Array.toList_map, Array.toList_map, hparents]

theorem linkFaults (h : Alike r r') :
    r.linkErrors.map HierarchyError.fault = r'.linkErrors.map HierarchyError.fault := by
  have hfaults : r.classes.toList.map (fun d => (r.linkError? d).map HierarchyError.fault) =
      r'.classes.toList.map fun d => (r'.linkError? d).map HierarchyError.fault := by
    refine h.classes.map_eq fun d d' hd => ?_
    unfold Registry.linkError?
    rw [h.resolveParent hd]
    cases r'.resolveParent d' with
    | ok parent => rfl
    | error fault => rfl
  have hreduce : ∀ r : Registry, r.linkErrors.map HierarchyError.fault =
      (r.classes.toList.map fun d => (r.linkError? d).map HierarchyError.fault).reduceOption := by
    intro r
    rw [linkErrors, List.map_filterMap, List.reduceOption, List.filterMap_map]
    rfl
  rw [hreduce r, hreduce r', hfaults]

end Alike

end Registry

/-! ## Asking -/

namespace Hierarchy

/-- Two hierarchies with the same names and the same links between them. -/
structure SameShape (g h : Hierarchy) : Prop where
  names : g.names = h.names
  links : g.links = h.links

theorem nameOf_eq_getD (g : Hierarchy) (c : ClassIndex) : g.nameOf c = g.names[c]?.getD "" := by
  unfold nameOf names declaration?
  rw [List.getElem?_map, Array.getElem?_toList]
  cases g.classes[c]? with
  | none => rfl
  | some d => rfl

namespace SameShape

variable {g h : Hierarchy} (hgh : SameShape g h)
include hgh

theorem nameOf (c : ClassIndex) : g.nameOf c = h.nameOf c := by
  rw [nameOf_eq_getD, nameOf_eq_getD, hgh.names]

theorem size_eq : g.size = h.size := by
  have hlen := congrArg List.length hgh.names
  rwa [Hierarchy.names, Hierarchy.names, List.length_map, List.length_map] at hlen

/-- An index has a declaration in both or in neither. -/
theorem declaration?_cases (c : ClassIndex) :
    (g.declaration? c = none ∧ h.declaration? c = none) ∨
    ∃ d d', g.declaration? c = some d ∧ h.declaration? c = some d' ∧
      d.name.name = d'.name.name := by
  by_cases hc : c < g.size
  · obtain ⟨d, hd⟩ := exists_declaration hc
    obtain ⟨d', hd'⟩ := exists_declaration (hgh.size_eq ▸ hc : c < h.size)
    refine .inr ⟨d, d', hd, hd', ?_⟩
    rw [← nameOf_of_declaration? hd, ← nameOf_of_declaration? hd', hgh.nameOf]
  · have hc' : ¬ c < h.size := hgh.size_eq ▸ hc
    exact .inl ⟨Array.getElem?_eq_none (Nat.le_of_not_lt hc),
      Array.getElem?_eq_none (Nat.le_of_not_lt hc')⟩

theorem isSealed (c : ClassIndex) : g.isSealed c = h.isSealed c := by
  unfold Hierarchy.isSealed
  rw [hgh.nameOf]

theorem isRooted (c : ClassIndex) : g.isRooted c = h.isRooted c := by
  unfold Hierarchy.isRooted
  rw [hgh.links]

theorem conforms (sub sup : ClassIndex) : g.conforms sub sup = h.conforms sub sup := by
  unfold Hierarchy.conforms ancestors
  rw [hgh.isSealed, hgh.isSealed, hgh.links]

theorem join (left right : ClassIndex) : g.join left right = h.join left right := by
  unfold Hierarchy.join
  rw [hgh.isSealed, hgh.isSealed, hgh.links, hgh.nameOf, hgh.nameOf]

theorem rootPath (c : ClassIndex) : g.rootPath c = h.rootPath c := by
  unfold Hierarchy.rootPath
  rw [hgh.isRooted, hgh.links, hgh.nameOf]

theorem lookup (name : String) : g.lookup name = h.lookup name := by
  have hindex : g.indexOf? name = h.indexOf? name := by
    unfold Hierarchy.indexOf?
    rw [indexIn?_eq_findIdx?, indexIn?_eq_findIdx?]
    exact congrArg (List.findIdx? (· == name)) hgh.names
  unfold Hierarchy.lookup
  rw [hindex]

theorem superclassNames (name : String) : g.superclassNames name = h.superclassNames name := by
  unfold Hierarchy.superclassNames
  rw [hgh.lookup, hgh.links, funext hgh.nameOf]

end SameShape

end Hierarchy

namespace Registry.Alike

variable {r r' : Registry} (h : Alike r r')
include h

theorem sameShape : Hierarchy.SameShape r.hierarchy r'.hierarchy where
  names := h.names
  links := h.links

theorem cycleFaults :
    r.cycleErrors.map HierarchyError.fault = r'.cycleErrors.map HierarchyError.fault := by
  unfold cycleErrors
  rw [List.map_map, List.map_map, h.sameShape.links]
  refine List.map_congr_left fun cycle _ => ?_
  show Fault.inheritanceCycle (cycle.map r.hierarchy.nameOf) = _
  rw [funext h.sameShape.nameOf]
  rfl

theorem entryErrors : r.entryErrors = r'.entryErrors := by
  unfold Registry.entryErrors
  rw [h.hasEntryClass, h.entryClass]

theorem analyze_faults :
    r.analyze.errors.map HierarchyError.fault = r'.analyze.errors.map HierarchyError.fault := by
  unfold Registry.analyze
  simp only [List.map_append, h.faults, h.linkFaults, h.cycleFaults, h.entryErrors]

end Registry.Alike

/-! ## Layouts -/

namespace Layout

variable {l : Layout} {d d' : ClassDeclaration}

/-- A layout reads names and signatures of a declaration, attributes and methods apart. -/
theorem extend_congr (hname : d.name.name = d'.name.name) (h : d.SameSlots d') :
    l.extend d = l.extend d' := by
  have hattributes : ∀ (owner : String) (slots : List AttributeRow) (as : List Attribute),
      as.foldl (appendAttribute owner) slots =
        (as.map fun a => (a.name, a.typeName)).foldl
          (fun slots a => appendAttribute owner slots { name := a.1, typeName := a.2 }) slots := by
    intro owner slots as
    rw [List.foldl_map]
    rfl
  have hmethods : ∀ (owner : String) (slots : List MethodRow) (ms : List Method),
      ms.foldl (bindMethod owner) slots =
        (ms.map fun m => (m.name, m.formals, m.returnType)).foldl
          (fun slots m => bindMethod owner slots
            { name := m.1, formals := m.2.1, returnType := m.2.2 }) slots := by
    intro owner slots ms
    rw [List.foldl_map]
    rfl
  unfold extend
  rw [hname, hattributes, hattributes, h.attributes, hmethods, hmethods, h.methods]

variable {g h : Hierarchy} {c : ClassIndex}

/-- Declarations with the same slots on the walk from a class give the class the same layout. -/
theorem ofClass_congr (hgh : g.SameShape h)
    (hslots : ∀ a ∈ g.links.lineage c, ∀ d d', g.declaration? a = some d →
      h.declaration? a = some d' → d.SameSlots d') : ofClass g c = ofClass h c := by
  unfold ofClass ofPath
  rw [List.foldl_filterMap, List.foldl_filterMap, ← hgh.links]
  refine List.foldl_ext _ _ _ fun l a ha => ?_
  rcases hgh.declaration?_cases a with ⟨hd, hd'⟩ | ⟨d, d', hd, hd', hname⟩
  · rw [hd, hd']
  · rw [hd, hd']
    exact extend_congr hname (hslots a (List.mem_reverse.1 ha) d d' hd hd')

/-- A rooted class has the same layout, computed alone or in the table, in two hierarchies of one
shape where the declarations on its path have the same slots. -/
theorem exists_of_sameShape (hg : g.WellFormed) (hh : h.WellFormed) (hgh : g.SameShape h)
    {path : List ClassIndex} (hpath : g.rootPath c = .ok path)
    (hslots : ∀ a ∈ path, ∀ d d', g.declaration? a = some d → h.declaration? a = some d' →
      d.SameSlots d') :
    ∃ layout, compute g (g.nameOf c) = .ok layout ∧ compute h (g.nameOf c) = .ok layout ∧
      (LayoutTable.build g).get? c = some layout ∧
      (LayoutTable.build h).get? c = some layout := by
  obtain ⟨hrooted, rfl⟩ := Hierarchy.rootPath_eq_ok_iff.1 hpath
  have hrooted' : h.isRooted c = true := hgh.isRooted c ▸ hrooted
  have hc : c < g.size := hg.lt_size_of_isRooted hrooted
  have hc' : c < h.size := hgh.size_eq ▸ hc
  have hsame : ofClass g c = ofClass h c :=
    ofClass_congr hgh fun a ha => hslots a (List.mem_reverse.2 ha)
  refine ⟨ofClass g c, ?_, ?_, ?_, ?_⟩
  · rw [compute_nameOf hg hc, if_pos hrooted]
  · rw [hgh.nameOf, compute_nameOf hh hc', if_pos hrooted', hsame]
  · rw [LayoutTable.get?_build hg, if_pos hrooted]
  · rw [LayoutTable.get?_build hh, if_pos hrooted', hsame]

end Layout

/-- Analyses of declarations with the same headers have the same names, links and faults, and give
the same answers, whatever features the declarations have and wherever they are written. Where the
declarations on the path to a rooted class have the same slots as well, that class has the same
layout in both, whatever the other classes declare. -/
theorem features_do_not_interfere (entryClass : String) (ds ds' : List ClassDeclaration)
    (hheaders : ds.map ClassDeclaration.header = ds'.map ClassDeclaration.header) :
    let a := Analysis.build entryClass ds
    let a' := Analysis.build entryClass ds'
    let g := a.hierarchy
    let g' := a'.hierarchy
    (g.names = g'.names ∧ (∀ c, g.parent? c = g'.parent? c) ∧
      (∀ c, g.children c = g'.children c) ∧ (∀ c, g.isRooted c = g'.isRooted c) ∧
      a.errors.map HierarchyError.fault = a'.errors.map HierarchyError.fault ∧
      (∀ sub sup, g.conforms sub sup = g'.conforms sub sup) ∧
      (∀ left right, g.join left right = g'.join left right) ∧
      (∀ name, g.superclassNames name = g'.superclassNames name) ∧
      ∀ c, g.rootPath c = g'.rootPath c) ∧
    ∀ c path, g.rootPath c = .ok path →
      (∀ x ∈ path, ∀ d d', g.declaration? x = some d → g'.declaration? x = some d' →
        d.SameSlots d') →
      ∃ layout, Layout.compute g (g.nameOf c) = .ok layout ∧
        Layout.compute g' (g.nameOf c) = .ok layout ∧
        (LayoutTable.build g).get? c = some layout ∧
        (LayoutTable.build g').get? c = some layout := by
  intro a a' g g'
  have hg : g.WellFormed := Analysis.wellFormed_build entryClass ds
  have hg' : g'.WellFormed := Analysis.wellFormed_build entryClass ds'
  have halike : Registry.Alike (Registry.addAll { entryClass } ds)
      (Registry.addAll { entryClass } ds') := by
    have hinitial : Registry.Alike { entryClass } { entryClass } := ⟨rfl, .nil, rfl⟩
    exact hinitial.addAll (sameHeaders_iff.2 hheaders)
  have hgg : g.SameShape g' := halike.sameShape
  refine ⟨⟨hgg.names, ?_, ?_, hgg.isRooted, halike.analyze_faults, hgg.conforms, hgg.join,
    hgg.superclassNames, hgg.rootPath⟩, ?_⟩
  · intro c
    exact congrArg (·.parent? c) hgg.links
  · intro c
    exact congrArg (·.children c) hgg.links
  · intro c path hpath hslots
    exact Layout.exists_of_sameShape hg hg' hgg hpath hslots

/-- `Point` with an attribute before its methods and a class below it. -/
def pointProgram : List ClassDeclaration :=
  [.withMethod (.withAttribute (.named "Point") "x" "Int") "move" [("dx", "Int")] "Point",
    .inheriting (.named "Pixel") "Point", .inheriting (.named "Main") "IO"]

/-- The same classes elsewhere in the source, the methods of `Point` first, and with a method in
`Main`. -/
def mixedPointProgram : List ClassDeclaration :=
  [.withAttribute (.locatedAt (.withMethod (.named "Point") "move" [("dx", "Int")] "Point") ⟨3, 20⟩)
      "x" "Int",
    .inheriting (.named "Pixel") "Point",
    .withMethod (.inheriting (.named "Main") "IO") "main" [] "Object"]

/-- `Pixel` has one layout in both programs. -/
theorem features_do_not_interfere_pointProgram :
    let g := (Analysis.build "Main" pointProgram).hierarchy
    let g' := (Analysis.build "Main" mixedPointProgram).hierarchy
    pointProgram.map ClassDeclaration.header = mixedPointProgram.map ClassDeclaration.header ∧
    g.nameOf 6 = "Pixel" ∧ g.rootPath 6 = .ok [0, 5, 6] ∧ g ≠ g' ∧
    Layout.compute g "Pixel" = Layout.compute g' "Pixel" := by
  intro g g'
  have hheaders :
      pointProgram.map ClassDeclaration.header = mixedPointProgram.map ClassDeclaration.header := by
    decide
  have hname : g.nameOf 6 = "Pixel" := by decide +kernel
  have hpath : g.rootPath 6 = .ok [0, 5, 6] := by decide +kernel
  have hne : g ≠ g' := by decide +kernel
  obtain ⟨_, hlayout⟩ := features_do_not_interfere "Main" pointProgram mixedPointProgram hheaders
  have hslots : ∀ x ∈ [0, 5, 6], ∀ d ∈ g.declaration? x, ∀ d' ∈ g'.declaration? x,
      d.SameSlots d' := by
    decide +kernel
  obtain ⟨layout, hcompute, hcompute', _, _⟩ := hlayout 6 [0, 5, 6] hpath
    fun x hx d d' hd hd' => hslots x hx d hd d' hd'
  exact ⟨hheaders, hname, hpath, hne, hname ▸ hcompute.trans hcompute'.symm⟩

end CoolHierarchy
