import CoolHierarchy.Proofs.LayoutInheritance
import Mathlib.Data.List.Induction

/-!
# What a dispatch table holds

Along the path from the root to a class stand the methods of all classes on it, in the order in
which they are declared. The dispatch table of the class has a slot for each name among them. Where
a name comes first says which slot it has, and where it comes last says what is in it
(`IsDispatchTable`).

A table can also be kept with an index from names to slots beside it (`IndexedTable`). Index and
slots grow together, and that a name is new shows only in its slot being the one after the last.

* `isDispatchTable_bindMethod`: what binding one more method preserves.
* `IndexedTable.Agrees.exists_define?_eq_some`: the same of a table with an index.
* `dispatch_exact`: the dispatch table of every rooted class, and what a look-up in it finds.
-/

namespace CoolHierarchy

/-- What the classes of a path declare of one kind, class by class, with the names of the
classes. -/
def Hierarchy.declaredAlong {α : Type} (g : Hierarchy) (own : ClassDeclaration → List α)
    (path : List ClassIndex) : List (String × α) :=
  path.flatMap fun c => ((g.declaration? c).toList.flatMap own).map fun a => (g.nameOf c, a)

section Names

variable {α : Type} [BEq α] [LawfulBEq α]

/-- A list without its repetitions grows only by an element that is new to it. -/
theorem eraseDups_concat (as : List α) (a : α) :
    (as ++ [a]).eraseDups = if a ∈ as then as.eraseDups else as.eraseDups ++ [a] := by
  rw [List.eraseDups_append]
  split
  · next h => simp [List.removeAll, h]
  · next h => simp [List.removeAll, h, List.eraseDups_cons]

theorem nodup_eraseDups (as : List α) : as.eraseDups.Nodup := by
  induction as using List.reverseRecOn with
  | nil => exact List.nodup_nil
  | append_singleton as a ih =>
    rw [eraseDups_concat]
    split
    · exact ih
    · next hnew =>
      rw [← List.concat_eq_append]
      exact ih.concat fun h => hnew (List.mem_eraseDups.1 h)

theorem idxOf?_concat {as : List α} {a : α} (h : a ∉ as) (b : α) :
    (as ++ [a]).idxOf? b = if b == a then some as.length else as.idxOf? b := by
  have happend : (as ++ [a]).idxOf? b =
      (as.idxOf? b).or (if a == b then some as.length else none) := by
    simp only [List.idxOf?, List.findIdx?_append, List.findIdx?_singleton]
    split <;> simp
  rw [happend, Bool.beq_comm]
  split
  · next hba => rw [eq_of_beq hba, List.idxOf?_eq_none_iff.2 h, Option.none_or]
  · rw [Option.or_none]

end Names

namespace Layout

variable {bs : List (String × Method)} {rows : List MethodRow} {row : MethodRow}
  {name : String} {m : Method} {i : Nat}

/-! ## The slots of a list of methods -/

theorem namesOf_bindMethod (owner : String) (rows : List MethodRow) (m : Method) :
    namesOf (bindMethod owner rows m) =
      if m.name ∈ namesOf rows then namesOf rows else namesOf rows ++ [m.name] := by
  split
  · next h =>
    have hlt := List.idxOf_lt_length_of_mem h
    rw [bindMethod_of_mem owner h, namesOf, List.map_set]
    have hset := List.set_getElem_self hlt
    rw [List.getElem_idxOf hlt] at hset
    exact hset
  · next h =>
    rw [bindMethod_of_not_mem owner h, namesOf, List.map_append]
    rfl

/-- A table has a slot for each name of the methods, in the order of their first occurrences. The
slot has the number of its place and holds the last method of its name. -/
structure IsDispatchTable (bs : List (String × Method)) (rows : List MethodRow) : Prop where
  names : namesOf rows = (bs.map fun b => b.2.name).eraseDups
  last : ∀ i row, rows[i]? = some row → ∃ before owner m after,
    bs = before ++ (owner, m) :: after ∧ (∀ b ∈ after, b.2.name ≠ m.name) ∧
    row = methodRow owner m i

theorem isDispatchTable_nil : IsDispatchTable [] [] :=
  ⟨rfl, fun _ _ h => by cases h⟩

theorem IsDispatchTable.nodup_names (h : IsDispatchTable bs rows) : (namesOf rows).Nodup :=
  h.names ▸ nodup_eraseDups _

/-- No other slot has the name. -/
theorem IsDispatchTable.idxOf_name (h : IsDispatchTable bs rows) (hrow : rows[i]? = some row) :
    (namesOf rows).idxOf row.name = i := by
  obtain ⟨hi, rfl⟩ := List.getElem?_eq_some_iff.1 hrow
  have hlt : i < (namesOf rows).length := by rwa [length_namesOf]
  have hname : (namesOf rows)[i] = rows[i].name := List.getElem_map _
  rw [← hname]
  exact h.nodup_names.idxOf_getElem i hlt

/-- Binding one more method to a table gives a table for the methods with that one at the end. -/
theorem isDispatchTable_bindMethod (h : IsDispatchTable bs rows) (owner : String) (m : Method) :
    IsDispatchTable (bs ++ [(owner, m)]) (bindMethod owner rows m) := by
  refine ⟨?_, ?_⟩
  · rw [namesOf_bindMethod, h.names, List.map_append, List.map_singleton, eraseDups_concat]
    simp only [List.mem_eraseDups]
  · intro i row hrow
    rw [getElem?_bindMethod] at hrow
    split at hrow
    · -- The slot of the new method, which has nothing after it.
      cases hrow
      exact ⟨bs, owner, m, [], rfl, by simp, rfl⟩
    · -- Another slot. Its last method is still the last one, since the new one has another name.
      next hi =>
      have hother : m.name ≠ row.name := fun hname => hi (hname ▸ (h.idxOf_name hrow).symm)
      obtain ⟨before, owner', m', after, rfl, hafter, rfl⟩ := h.last i row hrow
      refine ⟨before, owner', m', after ++ [(owner, m)], by simp, ?_, rfl⟩
      intro b hb
      rcases List.mem_append.1 hb with hb | hb
      · exact hafter b hb
      · cases List.mem_singleton.1 hb
        exact hother

/-- A table in which methods of several classes are bound one after the other. -/
def bindAll (bs : List (String × Method)) (rows : List MethodRow) : List MethodRow :=
  bs.foldl (fun rows b => bindMethod b.1 rows b.2) rows

theorem isDispatchTable_bindAll (bs : List (String × Method)) :
    IsDispatchTable bs (bindAll bs []) := by
  induction bs using List.reverseRecOn with
  | nil => exact isDispatchTable_nil
  | append_singleton bs b ih =>
    rw [bindAll, List.foldl_append]
    exact isDispatchTable_bindMethod ih b.1 b.2

/-- What every class adds to a part of its layout is added class by class along a path. -/
theorem foldl_extend_eq {α β : Type} (g : Hierarchy) {own : ClassDeclaration → List α}
    {append : String → β → α → β} {part : Layout → β}
    (hextend : ∀ l d, part (extend l d) = (own d).foldl (append d.name.name) (part l))
    (path : List ClassIndex) (l : Layout) :
    part ((path.filterMap g.declaration?).foldl extend l) =
      (g.declaredAlong own path).foldl (fun done b => append b.1 done b.2) (part l) := by
  induction path generalizing l with
  | nil => rfl
  | cons c path ih =>
    cases hd : g.declaration? c with
    | none =>
      rw [List.filterMap_cons_none hd, ih]
      simp [Hierarchy.declaredAlong, hd]
    | some d =>
      rw [List.filterMap_cons_some hd, List.foldl_cons, ih, hextend]
      have hname : g.nameOf c = d.name.name := Hierarchy.nameOf_of_declaration? hd
      simp [Hierarchy.declaredAlong, hd, List.foldl_append, List.foldl_map, hname]

/-- A layout that is extended along a path binds all methods of the path. -/
theorem methods_foldl_extend (g : Hierarchy) (path : List ClassIndex) (l : Layout) :
    ((path.filterMap g.declaration?).foldl extend l).methods =
      bindAll (g.declaredAlong ClassDeclaration.methods path) l.methods :=
  foldl_extend_eq g (fun _ _ => rfl) path l

/-! ## Look-up -/

theorem method?_eq_getElem? (l : Layout) (name : String) :
    l.method? name = ((namesOf l.methods).idxOf? name).bind (l.methods[·]?) := by
  rw [method?, List.find?_eq_bind_findIdx?_getElem?, findIdx?_name]

theorem IsDispatchTable.method?_eq_some {l : Layout} (h : IsDispatchTable bs l.methods)
    (hrow : l.methods[i]? = some row) : l.method? row.name = some row := by
  have hmem : row.name ∈ namesOf l.methods := List.mem_map_of_mem (List.mem_of_getElem? hrow)
  rw [method?_eq_getElem?, idxOf?_name hmem, h.idxOf_name hrow, Option.bind_some, hrow]

theorem IsDispatchTable.method?_eq_none_iff {l : Layout} (h : IsDispatchTable bs l.methods) :
    l.method? name = none ↔ ∀ b ∈ bs, b.2.name ≠ name := by
  have hmem : name ∈ namesOf l.methods ↔ ∃ b ∈ bs, b.2.name = name := by
    rw [h.names, List.mem_eraseDups, List.mem_map]
  have hnone : l.method? name = none ↔ name ∉ namesOf l.methods := by
    simp [method?, namesOf]
  rw [hnone, hmem]
  simp

end Layout

/-! ## Tables with an index -/

/-- A dispatch table with its slots in an array and an index from names to slots. -/
structure IndexedTable where
  slots : Array MethodRow := #[]
  byName : List (String × Nat) := []
deriving DecidableEq, Repr, Inhabited

namespace IndexedTable

variable {rows : List MethodRow} {t : IndexedTable} {m : Method}

/-- Binds a method. A name that is not in the index is put there with the slot after the last, and
the slot after the last is what makes the table longer. There is nothing to write to beyond that
slot. -/
def define? (t : IndexedTable) (owner : String) (m : Method) : Option IndexedTable :=
  let slot := (t.byName.lookup m.name).getD t.slots.size
  let byName :=
    if (t.byName.lookup m.name).isSome then t.byName else (m.name, slot) :: t.byName
  if slot = t.slots.size then
    some { slots := t.slots.push (Layout.methodRow owner m slot), byName }
  else if slot < t.slots.size then
    some { slots := t.slots.setIfInBounds slot (Layout.methodRow owner m slot), byName }
  else none

/-- The table of a list of methods. -/
def build? (bs : List (String × Method)) : Option IndexedTable :=
  bs.foldlM (fun t b => t.define? b.1 b.2) {}

/-- Looks up a name. There is no answer when the index leads out of the slots. -/
def get? (t : IndexedTable) (name : String) : Option (Option MethodRow) :=
  match t.byName.lookup name with
  | some slot => t.slots[slot]?.map some
  | none => some none

/-- A table has the slots of another one, and its index finds them. -/
structure Agrees (rows : List MethodRow) (t : IndexedTable) : Prop where
  slots : t.slots.toList = rows
  byName : ∀ name, t.byName.lookup name = (Layout.namesOf rows).idxOf? name

theorem define?_of_known {slot : Nat} (owner : String) (h : t.byName.lookup m.name = some slot)
    (hlt : slot < t.slots.size) : t.define? owner m =
      some { t with slots := t.slots.setIfInBounds slot (Layout.methodRow owner m slot) } := by
  simp only [define?, h, Option.getD_some, if_neg (Nat.ne_of_lt hlt), if_pos hlt]
  rfl

theorem define?_of_new (owner : String) (h : t.byName.lookup m.name = none) :
    t.define? owner m =
      some { slots := t.slots.push (Layout.methodRow owner m t.slots.size)
             byName := (m.name, t.slots.size) :: t.byName } := by
  simp only [define?, h, Option.getD_none, if_true]
  rfl

theorem Agrees.exists_define?_eq_some (h : Agrees rows t) (owner : String) (m : Method) :
    ∃ t', t.define? owner m = some t' ∧ Agrees (Layout.bindMethod owner rows m) t' := by
  have hsize : t.slots.size = rows.length := by
    rw [← h.slots, Array.length_toList]
  have hnames := Layout.namesOf_bindMethod owner rows m
  by_cases hmem : m.name ∈ Layout.namesOf rows
  · -- The index finds a slot of the table, and its row is overwritten.
    have hlookup := (h.byName m.name).trans (Layout.idxOf?_name hmem)
    have hlt : (Layout.namesOf rows).idxOf m.name < t.slots.size := by
      rw [hsize]
      exact Layout.idxOf_name_lt hmem
    refine ⟨_, define?_of_known owner hlookup hlt, ?_, ?_⟩
    · rw [Array.toList_setIfInBounds, h.slots, Layout.bindMethod_of_mem owner hmem]
    · rw [hnames, if_pos hmem]
      exact h.byName
  · -- The index does not know the name, which gets the slot after the last.
    have hlookup := (h.byName m.name).trans (List.idxOf?_eq_none_iff.2 hmem)
    refine ⟨_, define?_of_new owner hlookup, ?_, ?_⟩
    · rw [Array.toList_push, h.slots, Layout.bindMethod_of_not_mem owner hmem, hsize]
    · intro name
      rw [hnames, if_neg hmem, idxOf?_concat hmem, List.lookup_cons, h.byName, hsize,
        Layout.length_namesOf]
      cases name == m.name <;> rfl

/-- Binding more methods never leads out of the slots either. -/
theorem Agrees.exists_foldlM_define?_eq_some (h : Agrees rows t) (bs : List (String × Method)) :
    ∃ t', bs.foldlM (fun t b => t.define? b.1 b.2) t = some t' ∧
      Agrees (Layout.bindAll bs rows) t' := by
  induction bs generalizing rows t with
  | nil => exact ⟨t, rfl, h⟩
  | cons b bs ih =>
    obtain ⟨t', ht', hagrees'⟩ := h.exists_define?_eq_some b.1 b.2
    obtain ⟨t'', ht'', hagrees''⟩ := ih hagrees'
    refine ⟨t'', ?_, hagrees''⟩
    rw [List.foldlM_cons, ht']
    exact ht''

/-- The table of a list of methods can be built, and has the slots of the one without an index. -/
theorem exists_build?_eq_some (bs : List (String × Method)) :
    ∃ t, build? bs = some t ∧ Agrees (Layout.bindAll bs []) t :=
  Agrees.exists_foldlM_define?_eq_some ⟨rfl, fun _ => rfl⟩ bs

/-- The index never leads out of the slots, and finds what a search through them finds. -/
theorem Agrees.get?_eq {l : Layout} (h : Agrees l.methods t) (name : String) :
    t.get? name = some (l.method? name) := by
  rw [get?, h.byName, Layout.method?_eq_getElem?]
  by_cases hmem : name ∈ Layout.namesOf l.methods
  · rw [Layout.idxOf?_name hmem]
    show (t.slots[_]?).map some = some l.methods[_]?
    rw [← Array.getElem?_toList, h.slots, List.getElem?_eq_getElem (Layout.idxOf_name_lt hmem)]
    rfl
  · rw [List.idxOf?_eq_none_iff.2 hmem]
    rfl

end IndexedTable

/-- The dispatch table of every rooted class of any program. It has a slot for each name of a method
on the path from the root to the class, in the order in which the names come first, with the last
method of the name in it. Looking up a name finds its slot, and finds nothing for a name that no
class on the path declares a method with. A table with an index can be built from the same methods
without a step out of its slots; it has the same slots and finds the same. -/
theorem dispatch_exact (entryClass : String) (ds : List ClassDeclaration) :
    let g := (Analysis.build entryClass ds).hierarchy
    ∀ c, g.isRooted c = true → ∃ path layout,
      g.rootPath c = .ok path ∧ Layout.compute g (g.nameOf c) = .ok layout ∧
      let bs := g.declaredAlong ClassDeclaration.methods path
      Layout.IsDispatchTable bs layout.methods ∧
      (layout.methods.map MethodRow.name).Nodup ∧
      (∀ (i : Nat) row, layout.methods[i]? = some row →
        row.slot = i ∧ layout.method? row.name = some row) ∧
      (∀ name, layout.method? name = none ↔ ∀ b ∈ bs, b.2.name ≠ name) ∧
      ∃ t, IndexedTable.build? bs = some t ∧ t.slots.toList = layout.methods ∧
        ∀ name, t.get? name = some (layout.method? name) := by
  intro g c hrooted
  have hg : g.WellFormed := Analysis.wellFormed_build entryClass ds
  have hmethods : (Layout.ofClass g c).methods = Layout.bindAll
      (g.declaredAlong ClassDeclaration.methods (g.links.lineage c).reverse) [] :=
    Layout.methods_foldl_extend g _ Layout.empty
  refine ⟨(g.links.lineage c).reverse, Layout.ofClass g c, ?_, ?_, ?_⟩
  · exact Hierarchy.rootPath_eq_ok_iff.2 ⟨hrooted, rfl⟩
  · rw [Layout.compute_nameOf hg (hg.lt_size_of_isRooted hrooted), if_pos hrooted]
  intro bs
  have htable : Layout.IsDispatchTable bs (Layout.ofClass g c).methods :=
    hmethods ▸ Layout.isDispatchTable_bindAll bs
  obtain ⟨t, ht, hagrees⟩ := IndexedTable.exists_build?_eq_some bs
  rw [← hmethods] at hagrees
  exact ⟨htable, htable.nodup_names, fun i row hrow =>
    ⟨Layout.numbered_ofClass g c i row hrow, htable.method?_eq_some hrow⟩,
    fun name => htable.method?_eq_none_iff, t, ht, hagrees.slots, hagrees.get?_eq⟩

/-- `Shape` declares `area`, and `Circle` `draw`, `area` and `draw` again. So `area` keeps the slot
that it has in `Shape`, and the second `draw` is the one to be called. `name` is an attribute. -/
theorem dispatch_overridingProgram :
    let g := (Analysis.build "Main" overridingProgram).hierarchy
    let bs := g.declaredAlong ClassDeclaration.methods [0, 6, 5]
    g.isRooted 5 = true ∧ g.rootPath 5 = .ok [0, 6, 5] ∧
    bs.map (fun b => (b.1, b.2.name)) =
      [("Object", "abort"), ("Object", "type_name"), ("Object", "copy"), ("Shape", "area"),
        ("Circle", "draw"), ("Circle", "area"), ("Circle", "draw")] ∧
    ∃ layout, Layout.compute g (g.nameOf 5) = .ok layout ∧
      Layout.IsDispatchTable bs layout.methods ∧
      layout.methods.map (fun row => (row.name, row.definedIn, row.returnType)) =
        [("abort", "Object", "Object"), ("type_name", "Object", "String"),
          ("copy", "Object", "Object"), ("area", "Circle", "Int"), ("draw", "Circle", "Circle")] ∧
      (∃ row, layout.methods[4]? = some row ∧ row.slot = 4 ∧ layout.method? row.name = some row) ∧
      ∃ t, IndexedTable.build? bs = some t ∧ t.get? "name" = some none := by
  intro g bs
  have hrooted : g.isRooted 5 = true := by decide +kernel
  have hfive : g.rootPath 5 = .ok [0, 6, 5] := by decide +kernel
  obtain ⟨path, layout, hpath, hlayout, htable, _, hslots, hnone, t, ht, _, hget⟩ :=
    dispatch_exact "Main" overridingProgram 5 hrooted
  cases hfive.symm.trans hpath
  have hcomputed : (Layout.compute g (g.nameOf 5)).map (fun l =>
      l.methods.map fun row => (row.name, row.definedIn, row.returnType)) =
      .ok [("abort", "Object", "Object"), ("type_name", "Object", "String"),
        ("copy", "Object", "Object"), ("area", "Circle", "Int"), ("draw", "Circle", "Circle")] := by
    decide +kernel
  rw [hlayout] at hcomputed
  have hrows := Except.ok.inj hcomputed
  have hlt : 4 < layout.methods.length := by
    have hlength := congrArg List.length hrows
    rw [List.length_map] at hlength
    rw [hlength]
    decide
  have hrow := List.getElem?_eq_getElem hlt
  have hname : layout.method? "name" = none := (hnone "name").2 (by decide +kernel)
  exact ⟨hrooted, hfive, by decide +kernel, layout, hlayout, htable, hrows,
    ⟨_, hrow, hslots 4 _ hrow⟩, t, ht, (hget "name").trans (congrArg some hname)⟩

end CoolHierarchy
