import CoolHierarchy.Proofs.Dispatch
import CoolHierarchy.Proofs.RootPaths
import Mathlib.Order.Bounds.Basic

/-!
# Where the attributes of an object lie

The attributes of an object are those of all classes on the path from the root to its class, in the
order in which they are declared. None is merged with another one, also when they have one name, and
the offset of each is its place (`Layout.rowsOf`). A name stands for the last of its attributes,
which is the one that the class nearest to the object declares (`Hierarchy.Sees`).

* `rowsOf_concat`: what one more attribute adds.
* `attributeOffset?_eq_some_iff`: a search from the end finds the greatest offset.
* `attributes_exact`: the attributes of every rooted class, and what a look-up among them finds.
-/

namespace CoolHierarchy

namespace Layout

variable {as : List (String × Attribute)} {l : Layout} {name : String} {i : Nat}

/-- The row of an attribute at an offset. -/
def attributeRow (owner : String) (a : Attribute) (offset : Nat) : AttributeRow :=
  { offset, name := a.name, typeName := a.typeName, definedIn := owner }

/-- One row for each attribute, with its place as the offset. -/
def rowsOf (as : List (String × Attribute)) : List AttributeRow :=
  as.mapIdx fun i a => attributeRow a.1 a.2 i

theorem getElem?_rowsOf (as : List (String × Attribute)) (i : Nat) :
    (rowsOf as)[i]? = as[i]?.map fun a => attributeRow a.1 a.2 i :=
  List.getElem?_mapIdx

theorem names_rowsOf (as : List (String × Attribute)) :
    (rowsOf as).map AttributeRow.name = as.map fun a => a.2.name := by
  apply List.ext_getElem?
  intro i
  rw [List.getElem?_map, List.getElem?_map, getElem?_rowsOf, Option.map_map]
  rfl

/-! ## The rows of a list of attributes -/

/-- One more attribute gets the next offset, and the others keep theirs. -/
theorem rowsOf_concat (as : List (String × Attribute)) (owner : String) (a : Attribute) :
    rowsOf (as ++ [(owner, a)]) = appendAttribute owner (rowsOf as) a := by
  rw [rowsOf, List.mapIdx_concat, appendAttribute, rowsOf, List.length_mapIdx]
  rfl

theorem rowsOf_eq_foldl (as : List (String × Attribute)) :
    rowsOf as = as.foldl (fun rows a => appendAttribute a.1 rows a.2) [] := by
  induction as using List.reverseRecOn with
  | nil => rfl
  | append_singleton as a ih => rw [rowsOf_concat, ih, List.foldl_append, List.foldl_cons,
      List.foldl_nil]

/-- The rows of a class are those of all attributes on the path to it. -/
theorem attributes_ofClass (g : Hierarchy) (c : ClassIndex) : (ofClass g c).attributes =
    rowsOf (g.declaredAlong ClassDeclaration.attributes (g.links.lineage c).reverse) := by
  rw [rowsOf_eq_foldl]
  exact foldl_extend_eq g (fun _ _ => rfl) _ empty

/-! ## Look-up -/

theorem offset_of_getElem? {row : AttributeRow} (h : (rowsOf as)[i]? = some row) :
    row.offset = i := by
  rw [getElem?_rowsOf, Option.map_eq_some_iff] at h
  obtain ⟨a, _, rfl⟩ := h
  rfl

theorem attributeOffset?_eq_none_iff {l : Layout} :
    l.attributeOffset? name = none ↔ name ∉ l.attributes.map AttributeRow.name := by
  simp [attributeOffset?]

/-- What the search for a name finds has the greatest offset of all rows with the name, because it
starts at the end. -/
theorem isGreatest_of_attributeOffset? (hl : l.attributes = rowsOf as)
    (h : l.attributeOffset? name = some i) :
    IsGreatest {k | ∃ row ∈ l.attributes, row.name = name ∧ row.offset = k} i := by
  obtain ⟨row, hfind, rfl⟩ := Option.map_eq_some_iff.1 h
  obtain ⟨hname, later, earlier, hrows, hlater⟩ := List.find?_eq_some_iff_append.1 hfind
  rw [List.reverse_eq_append_iff, List.reverse_cons, List.append_assoc, List.singleton_append]
    at hrows
  have hplace : ∀ (k : Nat) row', l.attributes[k]? = some row' → row'.offset = k :=
    fun k row' hk => offset_of_getElem? (hl ▸ hk)
  have hoffset : row.offset = earlier.reverse.length := hplace _ row (by simp [hrows])
  refine ⟨⟨row, by simp [hrows], by simpa using hname, rfl⟩, ?_⟩
  rintro k ⟨row', hmem, hname', rfl⟩
  rw [hrows, List.mem_append, List.mem_cons] at hmem
  rcases hmem with hmem | rfl | hmem
  · -- A row before it has a place before it.
    obtain ⟨k, hk, rfl⟩ := List.mem_iff_getElem.1 hmem
    have hbefore := hplace k earlier.reverse[k] (by
      rw [hrows, List.getElem?_append_left hk, List.getElem?_eq_getElem hk])
    omega
  · exact Nat.le_refl _
  · -- The search has come by the rows after it, and none of them has the name.
    exact absurd hname' (by simpa using hlater row' (List.mem_reverse.1 hmem))

/-- A look-up answers with the greatest offset of a name. -/
theorem attributeOffset?_eq_some_iff (hl : l.attributes = rowsOf as) :
    l.attributeOffset? name = some i ↔
      IsGreatest {k | ∃ row ∈ l.attributes, row.name = name ∧ row.offset = k} i := by
  refine ⟨isGreatest_of_attributeOffset? hl, fun hi => ?_⟩
  cases h : l.attributeOffset? name with
  | none =>
    obtain ⟨row, hrow, hname, _⟩ := hi.1
    exact absurd (List.mem_map.2 ⟨row, hrow, hname⟩) (attributeOffset?_eq_none_iff.1 h)
  | some j => rw [(isGreatest_of_attributeOffset? hl h).unique hi]

/-- After the attribute that a look-up finds there is none of its name. -/
theorem exists_split (hl : l.attributes = rowsOf as) (h : l.attributeOffset? name = some i) :
    ∃ before owner a after, as = before ++ (owner, a) :: after ∧ before.length = i ∧
      a.name = name ∧ name ∉ after.map fun a => a.2.name := by
  obtain ⟨⟨row, hrow, hname, hoffset⟩, hgreatest⟩ := isGreatest_of_attributeOffset? hl h
  rw [hl] at hrow hgreatest
  obtain ⟨k, hk⟩ := List.mem_iff_getElem?.1 hrow
  obtain rfl : i = k := hoffset.symm.trans (offset_of_getElem? hk)
  rw [getElem?_rowsOf, Option.map_eq_some_iff] at hk
  obtain ⟨⟨owner, a⟩, ha, rfl⟩ := hk
  obtain ⟨hi, hget⟩ := List.getElem?_eq_some_iff.1 ha
  refine ⟨as.take i, owner, a, as.drop (i + 1), ?_, List.length_take_of_le hi.le, hname, ?_⟩
  · rw [← hget, List.getElem_cons_drop, List.take_append_drop]
  · intro hlater
    obtain ⟨b, hb, hbname⟩ := List.mem_map.1 hlater
    obtain ⟨k, hk⟩ := List.mem_iff_getElem?.1 hb
    rw [List.getElem?_drop] at hk
    have hrow : (rowsOf as)[i + 1 + k]? = some (attributeRow b.1 b.2 (i + 1 + k)) := by
      rw [getElem?_rowsOf, hk]
      rfl
    have hle : i + 1 + k ≤ i := hgreatest ⟨_, List.mem_of_getElem? hrow, hbname, rfl⟩
    omega

end Layout

/-! ## The attribute that a name stands for -/

namespace Hierarchy

variable {g : Hierarchy} {path : List ClassIndex} {name owner : String} {a : Attribute}

/-- The declaration of a class has an attribute of the name among its features. -/
def DeclaresAttribute (g : Hierarchy) (c : ClassIndex) (name : String) : Prop :=
  ∃ d, g.declaration? c = some d ∧ ∃ a, .ofAttribute a ∈ d.features ∧ a.name = name

/-- `a` is what a name stands for at the end of a path: its class is the last on the path that
declares an attribute of the name, and `a` is the last that this class declares. -/
structure Sees (g : Hierarchy) (path : List ClassIndex) (name : String) (c : ClassIndex)
    (a : Attribute) : Prop where
  name_eq : a.name = name
  nearest : ∃ above below, path = above ++ c :: below ∧ ∀ b ∈ below, ¬ g.DeclaresAttribute b name
  last : ∃ d first rest, g.declaration? c = some d ∧ d.attributes = first ++ a :: rest ∧
    ∀ a' ∈ rest, a'.name ≠ name

theorem mem_attributes {d : ClassDeclaration} : a ∈ d.attributes ↔ .ofAttribute a ∈ d.features := by
  rw [ClassDeclaration.attributes, List.mem_filterMap]
  constructor
  · rintro ⟨f, hf, hfa⟩
    cases f with
    | ofAttribute b =>
      cases hfa
      exact hf
    | ofMethod m => cases hfa
  · intro h
    exact ⟨.ofAttribute a, h, rfl⟩

/-- What a list takes from the classes of a path comes from one of them. -/
theorem mem_declaredAlong {α : Type} {own : ClassDeclaration → List α} {x : String × α} :
    x ∈ g.declaredAlong own path ↔
      ∃ c ∈ path, ∃ d, g.declaration? c = some d ∧ ∃ a ∈ own d, (g.nameOf c, a) = x := by
  simp only [declaredAlong, List.mem_flatMap, List.mem_map, Option.mem_toList]
  constructor
  · rintro ⟨c, hc, a, ⟨d, hd, ha⟩, rfl⟩
    exact ⟨c, hc, d, hd, a, ha, rfl⟩
  · rintro ⟨c, hc, d, hd, a, ha, rfl⟩
    exact ⟨c, hc, a, ⟨d, hd, ha⟩, rfl⟩

theorem mem_names_declaredAlong :
    name ∈ (g.declaredAlong ClassDeclaration.attributes path).map (fun a => a.2.name) ↔
      ∃ c ∈ path, g.DeclaresAttribute c name := by
  simp only [List.mem_map, mem_declaredAlong, DeclaresAttribute, ← mem_attributes]
  constructor
  · rintro ⟨_, ⟨c, hc, d, hd, a, ha, rfl⟩, hname⟩
    exact ⟨c, hc, d, hd, a, ha, hname⟩
  · rintro ⟨c, hc, d, hd, a, ha, hname⟩
    exact ⟨_, ⟨c, hc, d, hd, a, ha, rfl⟩, hname⟩

/-- Where a list that is taken from the classes of a path is cut, the path is cut in one of its
classes. -/
theorem exists_of_declaredAlong_eq_append {α : Type} {own : ClassDeclaration → List α} {a : α}
    {before after : List (String × α)}
    (h : g.declaredAlong own path = before ++ (owner, a) :: after) :
    ∃ above c below d first rest, path = above ++ c :: below ∧ g.declaration? c = some d ∧
      own d = first ++ a :: rest ∧ g.nameOf c = owner ∧
      after = rest.map (fun a => (g.nameOf c, a)) ++ g.declaredAlong own below := by
  induction path generalizing before with
  | nil => simp [declaredAlong] at h
  | cons c path ih =>
    rw [declaredAlong, List.flatMap_cons, ← declaredAlong] at h
    -- The cut is further along the path, or in what its first class declares.
    have hsplit : (∃ before', g.declaredAlong own path = before' ++ (owner, a) :: after) ∨
        ∃ after', ((g.declaration? c).toList.flatMap own).map (fun a => (g.nameOf c, a)) =
          before ++ (owner, a) :: after' ∧ after = after' ++ g.declaredAlong own path := by
      rcases List.append_eq_append_iff.1 h with ⟨before', _, hrest⟩ | ⟨after', hfirst, hrest⟩
      · exact .inl ⟨before', hrest⟩
      · rcases List.cons_eq_append_iff.1 hrest with ⟨rfl, hrest⟩ | ⟨after'', rfl, hafter⟩
        · exact .inl ⟨[], hrest.symm⟩
        · exact .inr ⟨after'', hfirst, hafter⟩
    rcases hsplit with ⟨before', hrest⟩ | ⟨after', hfirst, rfl⟩
    · obtain ⟨above, c', below, d, first, rest, rfl, hcut⟩ := ih hrest
      exact ⟨c :: above, c', below, d, first, rest, rfl, hcut⟩
    · obtain ⟨first, cut, hown, _, hcut⟩ := List.map_eq_append_iff.1 hfirst
      obtain ⟨a', rest, rfl, ha, rfl⟩ := List.map_eq_cons_iff.1 hcut
      cases ha
      cases hd : g.declaration? c with
      | none => simp [hd] at hown
      | some d =>
        rw [hd, Option.toList_some, List.flatMap_singleton] at hown
        exact ⟨[], c, path, d, first, rest, rfl, hd, hown, rfl, rfl⟩

end Hierarchy

namespace Layout

variable {g : Hierarchy} {path : List ClassIndex} {l : Layout} {name : String} {i : Nat}

/-- What a look-up finds is the row of the attribute that the name stands for. -/
theorem exists_sees (hl : l.attributes = rowsOf (g.declaredAlong ClassDeclaration.attributes path))
    (h : l.attributeOffset? name = some i) :
    ∃ c a, g.Sees path name c a ∧ l.attributes[i]? = some (attributeRow (g.nameOf c) a i) := by
  obtain ⟨before, owner, a, after, hsplit, rfl, hname, hafter⟩ := exists_split hl h
  have hrow : l.attributes[before.length]? = some (attributeRow owner a before.length) := by
    rw [hl, getElem?_rowsOf, hsplit, List.getElem?_append_right (Nat.le_refl _), Nat.sub_self]
    rfl
  obtain ⟨above, c, below, d, first, rest, hpath, hd, hattributes, rfl, rfl⟩ :=
    Hierarchy.exists_of_declaredAlong_eq_append hsplit
  rw [List.map_append, List.mem_append, not_or, List.map_map] at hafter
  refine ⟨c, a, ⟨hname, ⟨above, below, hpath, fun b hb hdeclares => ?_⟩, ?_⟩, hrow⟩
  · exact hafter.2 (Hierarchy.mem_names_declaredAlong.2 ⟨b, hb, hdeclares⟩)
  · exact ⟨d, first, rest, hd, hattributes, fun a' ha' hname' =>
      hafter.1 (List.mem_map.2 ⟨a', ha', hname'⟩)⟩

/-- A look-up finds nothing when no class on the path declares an attribute of the name. -/
theorem attributeOffset?_eq_none_iff_declares
    (hl : l.attributes = rowsOf (g.declaredAlong ClassDeclaration.attributes path)) :
    l.attributeOffset? name = none ↔ ∀ b ∈ path, ¬ g.DeclaresAttribute b name := by
  rw [attributeOffset?_eq_none_iff, hl, names_rowsOf, Hierarchy.mem_names_declaredAlong]
  simp only [not_exists, not_and]

end Layout

/-- The attributes of the objects of every rooted class of any program: what the classes on the path
from the root declare, one after the other, with the places as offsets. Looking up a name answers
with the greatest offset of the attributes of that name, which is the offset of the last one that
the class nearest to the end of the path declares, and finds nothing for a name that no class on the
path declares an attribute with. -/
theorem attributes_exact (entryClass : String) (ds : List ClassDeclaration) :
    let g := (Analysis.build entryClass ds).hierarchy
    ∀ c, g.isRooted c = true → ∃ path layout,
      g.rootPath c = .ok path ∧ g.links.IsRootPath c path ∧
      Layout.compute g (g.nameOf c) = .ok layout ∧
      layout.attributes = Layout.rowsOf (g.declaredAlong ClassDeclaration.attributes path) ∧
      ∀ name,
        (∀ i, layout.attributeOffset? name = some i ↔
          IsGreatest {k | ∃ row ∈ layout.attributes, row.name = name ∧ row.offset = k} i) ∧
        (∀ i, layout.attributeOffset? name = some i → ∃ owner a, g.Sees path name owner a ∧
          layout.attributes[i]? = some (Layout.attributeRow (g.nameOf owner) a i)) ∧
        (layout.attributeOffset? name = none ↔ ∀ b ∈ path, ¬ g.DeclaresAttribute b name) := by
  intro g c hrooted
  have hg : g.WellFormed := Analysis.wellFormed_build entryClass ds
  have hrows := Layout.attributes_ofClass g c
  refine ⟨(g.links.lineage c).reverse, Layout.ofClass g c,
    Hierarchy.rootPath_eq_ok_iff.2 ⟨hrooted, rfl⟩,
    Links.isRootPath_lineage (Links.isRooted_iff.1 hrooted) hg.root_top, ?_, hrows, ?_⟩
  · rw [Layout.compute_nameOf hg (hg.lt_size_of_isRooted hrooted), if_pos hrooted]
  · intro name
    exact ⟨fun i => Layout.attributeOffset?_eq_some_iff hrows, fun i => Layout.exists_sees hrows,
      Layout.attributeOffset?_eq_none_iff_declares hrows⟩

/-- `Circle` declares `size` twice, with a method in between, and inherits another one. -/
def shadowingProgram : List ClassDeclaration :=
  let shape := (ClassDeclaration.named "Shape").withAttribute "name" "String"
  let circle := ((ClassDeclaration.named "Circle").inheriting "Shape").withAttribute "size" "Int"
  [(circle.withMethod "area" [] "Int").withAttribute "size" "String",
    (shape.withMethod "area" [] "Int").withAttribute "size" "Object"]

/-- All three attributes keep a row of their own. The name stands for the second one of `Circle`,
and the name of the method stands for none. -/
theorem attributes_shadowingProgram :
    let g := (Analysis.build "Main" shadowingProgram).hierarchy
    g.isRooted 5 = true ∧ g.rootPath 5 = .ok [0, 6, 5] ∧
    ∃ layout, Layout.compute g (g.nameOf 5) = .ok layout ∧
      layout.attributes = [⟨0, "name", "String", "Shape"⟩, ⟨1, "size", "Object", "Shape"⟩,
        ⟨2, "size", "Int", "Circle"⟩, ⟨3, "size", "String", "Circle"⟩] ∧
      layout.attributeOffset? "size" = some 3 ∧
      (∃ c a, g.Sees [0, 6, 5] "size" c a ∧ g.nameOf c = "Circle" ∧ a.typeName = "String") ∧
      layout.attributeOffset? "area" = none ∧ ¬ g.DeclaresAttribute 6 "area" := by
  intro g
  have hrooted : g.isRooted 5 = true := by decide +kernel
  have hfive : g.rootPath 5 = .ok [0, 6, 5] := by decide +kernel
  obtain ⟨path, layout, hpath, _, hlayout, hrows, hlookup⟩ :=
    attributes_exact "Main" shadowingProgram 5 hrooted
  cases hfive.symm.trans hpath
  have hfour : Layout.rowsOf (g.declaredAlong ClassDeclaration.attributes [0, 6, 5]) =
      [⟨0, "name", "String", "Shape"⟩, ⟨1, "size", "Object", "Shape"⟩,
        ⟨2, "size", "Int", "Circle"⟩, ⟨3, "size", "String", "Circle"⟩] := by
    decide +kernel
  rw [hfour] at hrows
  have hsize : layout.attributeOffset? "size" = some 3 := by
    rw [Layout.attributeOffset?, hrows]
    decide +kernel
  have harea : layout.attributeOffset? "area" = none := by
    rw [Layout.attributeOffset?, hrows]
    decide +kernel
  obtain ⟨_, hsees, _⟩ := hlookup "size"
  obtain ⟨_, _, hnone⟩ := hlookup "area"
  obtain ⟨c, a, hca, hrow⟩ := hsees 3 hsize
  rw [hrows] at hrow
  have hthird := Option.some.inj hrow
  exact ⟨hrooted, hfive, layout, hlayout, hrows, hsize,
    ⟨c, a, hca, (congrArg AttributeRow.definedIn hthird).symm,
      (congrArg AttributeRow.typeName hthird).symm⟩,
    harea, hnone.1 harea 6 (by decide)⟩

end CoolHierarchy
