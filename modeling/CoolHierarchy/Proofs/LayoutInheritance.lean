import CoolHierarchy.Proofs.Conformance
import CoolHierarchy.Proofs.LayoutTable

/-!
# Layouts of subclasses

A layout grows in two ways: rows are appended, and a method row is overridden in its slot. Both
keep what was there in place (`inherits_extend`), so the layout of a subclass starts with the one
of its superclass (`inherits_of_reaches`).

* `layout_compatible`: a value of a subclass can stand wherever its superclass is expected.
-/

namespace CoolHierarchy.Layout

variable {l l' l'' : Layout} {rows rows' rows'' : List MethodRow} {owner name : String}
  {P : String → Prop} {m : Method} {d : ClassDeclaration}

/-! ## Dispatch tables -/

/-- Every row has the number of its place. -/
def Numbered (rows : List MethodRow) : Prop :=
  ∀ (i : Nat) (row : MethodRow), rows[i]? = some row → row.slot = i

/-- All slots of the one table are in the other, under the same names and numbers. What is bound to
them is unchanged or comes from a class with a name of the given kind. -/
def Overrides (P : String → Prop) (rows rows' : List MethodRow) : Prop :=
  ∀ (i : Nat) (row : MethodRow), rows[i]? = some row → ∃ row', rows'[i]? = some row' ∧
    row'.name = row.name ∧ row'.slot = row.slot ∧ (row' = row ∨ P row'.definedIn)

/-- The row of a method in a slot. -/
def methodRow (owner : String) (m : Method) (slot : Nat) : MethodRow :=
  { slot, name := m.name, formals := m.formals, returnType := m.returnType, definedIn := owner }

/-- The names of the slots of a table. A name is bound in the slot at its index. -/
def namesOf (rows : List MethodRow) : List String :=
  rows.map MethodRow.name

theorem length_namesOf (rows : List MethodRow) : (namesOf rows).length = rows.length :=
  List.length_map _

theorem idxOf_name_lt (h : name ∈ namesOf rows) : (namesOf rows).idxOf name < rows.length := by
  rw [← length_namesOf]
  exact List.idxOf_lt_length_of_mem h

theorem findIdx?_name (rows : List MethodRow) (name : String) :
    rows.findIdx? (fun row => row.name == name) = (namesOf rows).idxOf? name := by
  rw [namesOf, List.idxOf?, List.findIdx?_map]
  rfl

theorem idxOf?_name (h : name ∈ namesOf rows) :
    (namesOf rows).idxOf? name = some ((namesOf rows).idxOf name) := by
  obtain ⟨i, hi⟩ := Option.isSome_iff_exists.1 (List.isSome_idxOf?.2 h)
  rw [List.idxOf_eq_getD_idxOf?, hi]
  rfl

/-- The row in the slot of a name has the name. -/
theorem name_of_getElem?_idxOf {row : MethodRow}
    (h : rows[(namesOf rows).idxOf name]? = some row) : row.name = name := by
  obtain ⟨hlt, rfl⟩ := List.getElem?_eq_some_iff.1 h
  rw [← length_namesOf] at hlt
  rw [← List.getElem_map MethodRow.name (h := hlt)]
  exact List.getElem_idxOf hlt

theorem bindMethod_of_mem (owner : String) (h : m.name ∈ namesOf rows) :
    bindMethod owner rows m =
      rows.set ((namesOf rows).idxOf m.name)
        (methodRow owner m ((namesOf rows).idxOf m.name)) := by
  simp only [bindMethod, findIdx?_name, idxOf?_name h]
  rfl

theorem bindMethod_of_not_mem (owner : String) (h : m.name ∉ namesOf rows) :
    bindMethod owner rows m = rows ++ [methodRow owner m rows.length] := by
  simp only [bindMethod, findIdx?_name, List.idxOf?_eq_none_iff.2 h]
  rfl

/-- Only the slot of its name changes when a method is bound. -/
theorem getElem?_bindMethod (owner : String) (rows : List MethodRow) (m : Method) (i : Nat) :
    (bindMethod owner rows m)[i]? =
      if i = (namesOf rows).idxOf m.name then some (methodRow owner m i) else rows[i]? := by
  by_cases h : m.name ∈ namesOf rows
  · rw [bindMethod_of_mem owner h]
    split
    · next hi => rw [hi, List.getElem?_set_self (idxOf_name_lt h)]
    · next hi => rw [List.getElem?_set_ne (Ne.symm hi)]
  · rw [bindMethod_of_not_mem owner h, List.idxOf_eq_length h, length_namesOf]
    split
    · next hi => rw [hi, List.getElem?_concat_length]
    · next hi =>
      rcases Nat.lt_or_gt_of_ne hi with hlt | hgt
      · rw [List.getElem?_append_left hlt]
      · have hbeyond : (rows ++ [methodRow owner m rows.length]).length ≤ i := by
          rw [List.length_append]
          exact hgt
        rw [List.getElem?_eq_none hbeyond, List.getElem?_eq_none (Nat.le_of_lt hgt)]

theorem Overrides.refl (P : String → Prop) (rows : List MethodRow) : Overrides P rows rows :=
  fun _ row hrow => ⟨row, hrow, rfl, rfl, .inl rfl⟩

theorem Overrides.trans (h : Overrides P rows rows') (h' : Overrides P rows' rows'') :
    Overrides P rows rows'' := by
  intro i row hrow
  obtain ⟨row', hrow', hname, hslot, hfrom⟩ := h i row hrow
  obtain ⟨row'', hrow'', hname', hslot', hfrom'⟩ := h' i row' hrow'
  refine ⟨row'', hrow'', hname'.trans hname, hslot'.trans hslot, ?_⟩
  rcases hfrom' with rfl | hfrom'
  · exact hfrom
  · exact .inr hfrom'

theorem numbered_bindMethod (hrows : Numbered rows) (owner : String) (m : Method) :
    Numbered (bindMethod owner rows m) := by
  intro i row hrow
  rw [getElem?_bindMethod] at hrow
  split at hrow
  · cases hrow
    rfl
  · exact hrows i row hrow

theorem overrides_bindMethod (hrows : Numbered rows) (howner : P owner) (m : Method) :
    Overrides P rows (bindMethod owner rows m) := by
  intro i row hrow
  by_cases hi : i = (namesOf rows).idxOf m.name
  · -- The new row bears the name and the number of the one before it.
    have hname : row.name = m.name := name_of_getElem?_idxOf (hi ▸ hrow)
    exact ⟨methodRow owner m i, by rw [getElem?_bindMethod, if_pos hi], hname.symm,
      (hrows i row hrow).symm, .inr howner⟩
  · exact ⟨row, by rw [getElem?_bindMethod, if_neg hi, hrow], rfl, rfl, .inl rfl⟩

theorem numbered_foldl_bindMethod (hrows : Numbered rows) (owner : String) (ms : List Method) :
    Numbered (ms.foldl (bindMethod owner) rows) := by
  induction ms generalizing rows with
  | nil => exact hrows
  | cons m ms ih => exact ih (numbered_bindMethod hrows owner m)

theorem overrides_foldl_bindMethod (hrows : Numbered rows) (howner : P owner) (ms : List Method) :
    Overrides P rows (ms.foldl (bindMethod owner) rows) := by
  induction ms generalizing rows with
  | nil => exact .refl P rows
  | cons m ms ih =>
    exact (overrides_bindMethod hrows howner m).trans (ih (numbered_bindMethod hrows owner m))

/-- The names and numbers of the slots of a table. -/
def slotsOf (rows : List MethodRow) : List (String × Nat) :=
  rows.map fun row => (row.name, row.slot)

theorem Overrides.slotsOf_prefix (h : Overrides P rows rows') : slotsOf rows <+: slotsOf rows' := by
  rw [List.prefix_iff_getElem?]
  intro i hi
  have hlt : i < rows.length := by simpa [slotsOf] using hi
  obtain ⟨row', hrow', hname, hslot, _⟩ := h i rows[i] (List.getElem?_eq_getElem hlt)
  simp [slotsOf, hrow', hname, hslot]

/-- What a name is bound to is found in the same slot of the other table. -/
theorem Overrides.find? {row : MethodRow} (h : Overrides P rows rows')
    (hfind : rows.find? (fun m => m.name == name) = some row) :
    ∃ row', rows'.find? (fun m => m.name == name) = some row' ∧ row'.slot = row.slot ∧
      (row' = row ∨ P row'.definedIn) := by
  obtain ⟨hname, i, hi, rfl, hbefore⟩ := List.find?_eq_some_iff_getElem.1 hfind
  obtain ⟨row', hrow', hname', hslot, hfrom⟩ := h i rows[i] (List.getElem?_eq_getElem hi)
  obtain ⟨hi', rfl⟩ := List.getElem?_eq_some_iff.1 hrow'
  refine ⟨rows'[i], List.find?_eq_some_iff_getElem.2 ⟨by rw [hname', hname], i, hi', rfl, ?_⟩,
    hslot, hfrom⟩
  -- The rows before it have the names that they had, so none of them is found any earlier.
  intro j hj
  obtain ⟨row'', hrow'', hname'', _⟩ := h j rows[j] (List.getElem?_eq_getElem (hj.trans hi))
  obtain ⟨_, rfl⟩ := List.getElem?_eq_some_iff.1 hrow''
  rw [hname'']
  exact hbefore j hj

theorem mem_bindMethod {row : MethodRow} (h : row ∈ bindMethod owner rows m) :
    row ∈ rows ∨ row.definedIn = owner := by
  obtain ⟨i, hrow⟩ := List.mem_iff_getElem?.1 h
  rw [getElem?_bindMethod] at hrow
  split at hrow
  · cases hrow
    exact .inr rfl
  · exact .inl (List.mem_of_getElem? hrow)

/-- Every row of a table that methods are bound in was there before or comes from their owner. -/
theorem mem_foldl_bindMethod {row : MethodRow} {ms : List Method}
    (h : row ∈ ms.foldl (bindMethod owner) rows) : row ∈ rows ∨ row.definedIn = owner := by
  induction ms generalizing rows with
  | nil => exact .inl h
  | cons m ms ih =>
    rcases ih h with h | h
    · exact mem_bindMethod h
    · exact .inr h

/-! ## Layouts -/

theorem prefix_foldl_appendAttribute (owner : String) (slots : List AttributeRow)
    (as : List Attribute) : slots <+: as.foldl (appendAttribute owner) slots := by
  induction as generalizing slots with
  | nil => exact List.prefix_rfl
  | cons a as ih => exact (List.prefix_append slots _).trans (ih _)

/-- The one layout starts with the other. -/
structure Inherits (P : String → Prop) (l l' : Layout) : Prop where
  attributes : l.attributes <+: l'.attributes
  methods : Overrides P l.methods l'.methods

theorem Inherits.refl (P : String → Prop) (l : Layout) : Inherits P l l :=
  ⟨List.prefix_rfl, .refl P l.methods⟩

theorem Inherits.trans (h : Inherits P l l') (h' : Inherits P l' l'') : Inherits P l l'' :=
  ⟨h.attributes.trans h'.attributes, h.methods.trans h'.methods⟩

theorem numbered_extend (hl : Numbered l.methods) (d : ClassDeclaration) :
    Numbered (l.extend d).methods :=
  numbered_foldl_bindMethod hl d.name.name d.methods

theorem inherits_extend (hl : Numbered l.methods) (hd : P d.name.name) :
    Inherits P l (l.extend d) :=
  ⟨prefix_foldl_appendAttribute d.name.name l.attributes d.attributes,
    overrides_foldl_bindMethod hl hd d.methods⟩

theorem numbered_foldl_extend (hl : Numbered l.methods) (ds : List ClassDeclaration) :
    Numbered (ds.foldl extend l).methods := by
  induction ds generalizing l with
  | nil => exact hl
  | cons d ds ih => exact ih (numbered_extend hl d)

theorem mem_foldl_extend {row : MethodRow} {ds : List ClassDeclaration}
    (h : row ∈ (ds.foldl extend l).methods) :
    row ∈ l.methods ∨ ∃ d ∈ ds, row.definedIn = d.name.name := by
  induction ds generalizing l with
  | nil => exact .inl h
  | cons d ds ih =>
    rcases ih h with h | ⟨e, he, hfrom⟩
    · rcases mem_foldl_bindMethod h with h | hfrom
      · exact .inl h
      · exact .inr ⟨d, List.mem_cons_self, hfrom⟩
    · exact .inr ⟨e, List.mem_cons_of_mem d he, hfrom⟩

section Classes

variable {g : Hierarchy} {a c : ClassIndex}

theorem numbered_ofClass (g : Hierarchy) (c : ClassIndex) : Numbered (ofClass g c).methods := by
  refine numbered_foldl_extend ?_ _
  intro i row hrow
  cases hrow

/-- The rows of a dispatch table come from the class or from what is above it. -/
theorem exists_of_mem_methods {row : MethodRow} (h : row ∈ (ofClass g c).methods) :
    ∃ a, g.links.Reaches c a ∧ a < g.size ∧ g.nameOf a = row.definedIn := by
  rcases mem_foldl_extend h with h | ⟨d, hd, hfrom⟩
  · cases h
  · obtain ⟨a, ha, hda⟩ := List.mem_filterMap.1 hd
    exact ⟨a, Links.mem_lineage.1 (List.mem_reverse.1 ha), Hierarchy.lt_size_of_declaration? hda,
      by rw [Hierarchy.nameOf_of_declaration? hda, hfrom]⟩

/-- The layout of a class starts with the layouts of all classes above it, and what it overrides
comes from the classes in between. -/
theorem inherits_of_reaches (hg : g.WellFormed) (hca : g.links.Reaches c a)
    (ha : g.isRooted a = true) :
    Inherits (fun name => ∃ b, g.links.Reaches b a ∧ b < g.size ∧ g.nameOf b = name)
      (ofClass g a) (ofClass g c) := by
  induction hca with
  | refl => exact .refl _ _
  | @step c p a hp hpa ih =>
    -- The parent's layout starts with that of `a`, and `c` adds rows of its own.
    have hc : c < g.size := hg.lt_size_of_parent? hp
    obtain ⟨d, hd⟩ := Hierarchy.exists_declaration hc
    have hrooted : g.isRooted p = true :=
      Links.isRooted_iff.2 (hpa.trans (Links.isRooted_iff.1 ha))
    rw [ofClass_of_parent? hg hp hrooted hd]
    exact (ih ha).trans (inherits_extend (numbered_ofClass g p)
      ⟨c, .step hp hpa, hc, Hierarchy.nameOf_of_declaration? hd⟩)

end Classes

end CoolHierarchy.Layout

namespace CoolHierarchy

/-- Subtyping agrees with layouts on the hierarchy of any program. A class that a rooted class
conforms to has a layout too. Its attribute rows come first in the layout of the rooted class, its
slots come first in the dispatch table, and a method that it knows is found there in the same slot,
defined in the same class or in one that conforms to it. -/
theorem layout_compatible (entryClass : String) (ds : List ClassDeclaration) :
    let g := (Analysis.build entryClass ds).hierarchy
    ∀ c a, g.isRooted c = true → g.conforms c a = true →
    ∃ sub sup, Layout.compute g (g.nameOf c) = .ok sub ∧ Layout.compute g (g.nameOf a) = .ok sup ∧
      sup.attributes <+: sub.attributes ∧
      sup.methods.map (fun row => (row.name, row.slot)) <+:
        sub.methods.map (fun row => (row.name, row.slot)) ∧
      ∀ m inherited, sup.method? m = some inherited →
        ∃ found, sub.method? m = some found ∧ found.slot = inherited.slot ∧
          g.conformsByName found.definedIn inherited.definedIn = .ok true := by
  intro g c a hrooted hconforms
  have hg : g.WellFormed := Analysis.wellFormed_build entryClass ds
  have hcroot := Links.isRooted_iff.1 hrooted
  have hca : g.links.Reaches c a := by
    rcases hg.conforms_iff.1 hconforms with rfl | h
    · exact hcroot
    · exact h
  have ha : g.isRooted a = true := Links.isRooted_iff.2 (hca.reaches_top hcroot hg.root_top)
  have hinherits := Layout.inherits_of_reaches hg hca ha
  refine ⟨Layout.ofClass g c, Layout.ofClass g a, ?_, ?_, hinherits.attributes,
    hinherits.methods.slotsOf_prefix, ?_⟩
  · rw [Layout.compute_nameOf hg (hg.lt_size_of_isRooted hrooted), if_pos hrooted]
  · rw [Layout.compute_nameOf hg (hg.lt_size_of_isRooted ha), if_pos ha]
  · intro m inherited hm
    obtain ⟨found, hfound, hslot, hfrom⟩ := hinherits.methods.find? hm
    refine ⟨found, hfound, hslot, ?_⟩
    obtain ⟨y, hay, hy, hyname⟩ := Layout.exists_of_mem_methods (List.mem_of_find?_eq_some hm)
    rcases hfrom with rfl | ⟨x, hxa, hx, hxname⟩
    · rw [← hyname, hg.conformsByName_nameOf hy hy, hg.conforms_of_reaches (.refl y)]
    · rw [← hxname, ← hyname, hg.conformsByName_nameOf hx hy,
        hg.conforms_of_reaches (hxa.trans hay)]

/-- `Circle` overrides what it inherits from `Shape`, and declares one of its methods twice. -/
def overridingProgram : List ClassDeclaration :=
  let shape := ((ClassDeclaration.named "Shape").withAttribute "name" "String").withMethod
    "area" [] "Int"
  let circle := (((ClassDeclaration.named "Circle").inheriting "Shape").withAttribute
    "radius" "Int").withMethod "draw" [] "Shape"
  [(circle.withMethod "area" [] "Int").withMethod "draw" [] "Circle", shape]

/-- The layout of `Circle` starts with the one of `Shape`, and `area` stays in its slot. -/
theorem layout_compatible_overridingProgram :
    let g := (Analysis.build "Main" overridingProgram).hierarchy
    g.nameOf 5 = "Circle" ∧ g.nameOf 6 = "Shape" ∧ g.isRooted 5 = true ∧ g.conforms 5 6 = true ∧
    ∃ sub sup inherited found, Layout.compute g (g.nameOf 5) = .ok sub ∧
      Layout.compute g (g.nameOf 6) = .ok sup ∧ sup.attributes <+: sub.attributes ∧
      sup.method? "area" = some inherited ∧ sub.method? "area" = some found ∧
      found.slot = inherited.slot ∧
      g.conformsByName found.definedIn inherited.definedIn = .ok true := by
  intro g
  have hrooted : g.isRooted 5 = true := by decide +kernel
  have hconforms : g.conforms 5 6 = true := by decide +kernel
  obtain ⟨sub, sup, hsub, hsup, hattributes, _, hmethods⟩ :=
    layout_compatible "Main" overridingProgram 5 6 hrooted hconforms
  have harea : (Layout.compute g (g.nameOf 6)).map (fun l => (l.method? "area").isSome) =
      .ok true := by decide +kernel
  have hsome : (sup.method? "area").isSome = true := by
    rw [hsup] at harea
    simpa [Except.map] using harea
  obtain ⟨inherited, hinherited⟩ := Option.isSome_iff_exists.1 hsome
  obtain ⟨found, hfound, hslot, hfrom⟩ := hmethods "area" inherited hinherited
  exact ⟨by decide +kernel, by decide +kernel, hrooted, hconforms, sub, sup, inherited, found,
    hsub, hsup, hattributes, hinherited, hfound, hslot, hfrom⟩

end CoolHierarchy
