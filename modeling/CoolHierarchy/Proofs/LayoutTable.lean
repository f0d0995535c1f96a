import CoolHierarchy.Layout.Table
import CoolHierarchy.Proofs.Levels
import CoolHierarchy.Proofs.Linking

/-!
# The layout table and the single layouts

`Layout.compute` folds the declarations on the path from the root to a class. `LayoutTable.build`
goes down the levels and extends the layout of each parent. On the hierarchy of any program both
come to `Layout.ofClass`: the table for exactly the rooted classes (`get?_build`), and the single
computation too (`compute_nameOf`).

* `order_build`, `order_build_eq_cons`: the order of the table, from level to level and from classes
  to their children.
-/

namespace CoolHierarchy

namespace Layout

variable {g : Hierarchy} {c p : ClassIndex}

/-- The layout of a rooted class: the declarations from the root down, folded. -/
def ofClass (g : Hierarchy) (c : ClassIndex) : Layout :=
  ofPath ((g.links.lineage c).reverse.filterMap g.declaration?)

theorem ofPath_append (ds es : List ClassDeclaration) :
    ofPath (ds ++ es) = es.foldl extend (ofPath ds) := by
  rw [ofPath, ofPath, List.foldl_append]

/-- What the computation of a single layout answers for a registered class. -/
theorem compute_nameOf (hg : g.WellFormed) (hc : c < g.size) :
    compute g (g.nameOf c) =
      if g.isRooted c then .ok (ofClass g c) else .error (.brokenChain (g.nameOf c)) := by
  rw [compute, hg.lookup_nameOf hc]
  by_cases hrooted : g.isRooted c = true
  · rw [if_pos hrooted]
    show (g.rootPath c >>= fun path => pure (ofPath (path.filterMap g.declaration?))) = _
    rw [Hierarchy.rootPath, if_pos hrooted]
    rfl
  · rw [if_neg hrooted]
    show (g.rootPath c >>= fun path => pure (ofPath (path.filterMap g.declaration?))) = _
    rw [Hierarchy.rootPath, if_neg hrooted]
    rfl

theorem ofClass_root (hg : g.WellFormed) {d : ClassDeclaration}
    (hd : g.declaration? Links.root = some d) : ofClass g Links.root = empty.extend d := by
  have hlineage : g.links.lineage Links.root = [Links.root] := Links.lineage_of_top hg.root_top
  rw [ofClass, hlineage, List.reverse_singleton, List.filterMap_cons, hd]
  rfl

/-- The layout of a class extends the one of its parent. -/
theorem ofClass_of_parent? (hg : g.WellFormed) {d : ClassDeclaration} (hp : g.parent? c = some p)
    (hrooted : g.isRooted p = true) (hd : g.declaration? c = some d) :
    ofClass g c = (ofClass g p).extend d := by
  have hlineage := Links.lineage_of_parent? hp (Links.isRooted_iff.1 hrooted) hg.root_top
  rw [ofClass, hlineage, List.reverse_cons, List.filterMap_append, ofPath_append, List.filterMap_cons,
    hd]
  rfl

end Layout

namespace LayoutTable

variable {g : Hierarchy} {c : ClassIndex} {k : Nat} {layout : Layout}

/-- The level that a table starts with. -/
def top (g : Hierarchy) : List (ClassIndex × Layout) :=
  ((g.declaration? Links.root).map fun d => (Links.root, Layout.empty.extend d)).toList

/-- The level of a table that lies a number of levels below the root. -/
def levelEntries (g : Hierarchy) : Nat → List (ClassIndex × Layout)
  | 0 => top g
  | k + 1 => (levelEntries g k).flatMap (extendTo g)

theorem entries_build (g : Hierarchy) : (build g).entries = levels g g.size (top g) := rfl

/-! ## Levels of a table -/

@[simp] theorem levels_nil (g : Hierarchy) (n : Nat) : levels g n [] = [] := by
  cases n <;> rfl

theorem levels_succ (g : Hierarchy) (n : Nat) (level : List (ClassIndex × Layout)) :
    levels g (n + 1) level = level ++ levels g n (level.flatMap (extendTo g)) := by
  cases level with
  | nil => simp
  | cons entry level => rfl

/-- A table is its levels one after the other. -/
theorem levels_levelEntries (g : Hierarchy) (n k : Nat) :
    levels g n (levelEntries g k) = (List.range n).flatMap fun i => levelEntries g (k + i) := by
  induction n generalizing k with
  | zero => rfl
  | succ n ih =>
    have hrest : levels g n ((levelEntries g k).flatMap (extendTo g)) =
        (List.range n).flatMap fun i => levelEntries g (k + 1 + i) := ih (k + 1)
    rw [levels_succ, hrest, List.range_succ_eq_map, List.flatMap_cons, List.flatMap_map]
    simp only [Nat.add_zero, Nat.succ_eq_add_one, Nat.add_assoc, Nat.add_comm 1]

theorem levels_top (g : Hierarchy) (n : Nat) :
    levels g n (top g) = (List.range n).flatMap (levelEntries g) := by
  have h := levels_levelEntries g n 0
  simp only [Nat.zero_add] at h
  exact h

/-- The classes that a class passes its layout on to are its children. -/
theorem map_fst_extendTo (hg : g.WellFormed) (entry : ClassIndex × Layout) :
    (extendTo g entry).map Prod.fst = g.links.children entry.1 := by
  have hchild : ∀ c ∈ g.links.children entry.1,
      ((g.declaration? c).map fun d => (c, entry.2.extend d)).map Prod.fst = some c := by
    intro c hc
    obtain ⟨d, hd⟩ := Hierarchy.exists_declaration (hg.lt_size_of_mem_children hc)
    rw [hd]
    rfl
  rw [extendTo, List.map_filterMap, Hierarchy.children, List.filterMap_congr hchild,
    List.filterMap_some]

theorem map_fst_levelEntries (hg : g.WellFormed) (k : Nat) :
    (levelEntries g k).map Prod.fst = g.links.level k := by
  induction k with
  | zero =>
    obtain ⟨d, hd⟩ := Hierarchy.exists_declaration hg.root_lt
    rw [levelEntries, top, hd]
    rfl
  | succ k ih =>
    rw [levelEntries, Links.level, ← ih, List.map_flatMap, List.flatMap_map]
    simp only [map_fst_extendTo hg]

/-- Every class on a level has its own layout there. -/
theorem eq_ofClass_of_mem_levelEntries (hg : g.WellFormed) (h : (c, layout) ∈ levelEntries g k) :
    layout = Layout.ofClass g c := by
  induction k generalizing c layout with
  | zero =>
    obtain ⟨d, hd⟩ := Hierarchy.exists_declaration hg.root_lt
    rw [levelEntries, top, hd] at h
    cases List.mem_singleton.1 h
    rw [Layout.ofClass_root hg hd]
  | succ k ih =>
    -- The layout extends the one that the parent has a level higher, which is the parent's own.
    obtain ⟨⟨p, above⟩, hp, h⟩ := List.mem_flatMap.1 h
    obtain ⟨c', hc', h⟩ := List.mem_filterMap.1 h
    obtain ⟨d, hd, h⟩ := Option.map_eq_some_iff.1 h
    cases h
    have hlevel : p ∈ g.links.level k := by
      rw [← map_fst_levelEntries hg]
      exact List.mem_map_of_mem hp
    have hrooted : g.isRooted p = true := Links.exists_mem_level_iff.1 ⟨k, hlevel⟩
    rw [ih hp, Layout.ofClass_of_parent? hg (Links.mem_children.1 hc') hrooted hd]

/-! ## What a table holds -/

theorem order_build (hg : g.WellFormed) :
    (build g).order = (List.range g.size).flatMap g.links.level := by
  rw [order, entries_build, levels_top, List.map_flatMap]
  simp only [map_fst_levelEntries hg]

theorem mem_order_build (hg : g.WellFormed) : c ∈ (build g).order ↔ g.isRooted c = true := by
  rw [order_build hg, ← hg.size_links]
  exact Links.mem_flatMap_level hg.root_top (hg.size_links ▸ hg.root_lt)

theorem nodup_order_build (hg : g.WellFormed) : (build g).order.Nodup := by
  rw [order_build hg]
  exact Links.flatMap_level_nodup hg.root_top g.size

/-- A table begins with the root, and the children of its classes, in its order, are all the
rest. -/
theorem order_build_eq_cons (hg : g.WellFormed) :
    (build g).order = Links.root :: (build g).order.flatMap g.children := by
  rw [order_build hg, ← hg.size_links]
  exact Links.flatMap_level_eq_cons hg.root_top (hg.size_links ▸ hg.root_lt)

theorem eq_ofClass_of_mem_entries (hg : g.WellFormed) (h : (c, layout) ∈ (build g).entries) :
    layout = Layout.ofClass g c := by
  rw [entries_build, levels_top] at h
  obtain ⟨k, _, hk⟩ := List.mem_flatMap.1 h
  exact eq_ofClass_of_mem_levelEntries hg hk

/-- A table holds the layouts of the rooted classes. -/
theorem get?_build (hg : g.WellFormed) (c : ClassIndex) :
    (build g).get? c = if g.isRooted c then some (Layout.ofClass g c) else none := by
  cases hfind : (build g).entries.find? fun e => e.1 == c with
  | none =>
    have hnot : ¬ g.isRooted c = true := by
      rw [← mem_order_build hg]
      intro hc
      obtain ⟨entry, hmem, rfl⟩ := List.mem_map.1 hc
      exact List.find?_eq_none.1 hfind entry hmem (beq_self_eq_true entry.1)
    rw [get?, hfind, if_neg hnot]
    rfl
  | some entry =>
    obtain ⟨c', layout⟩ := entry
    have hmem := List.mem_of_find?_eq_some hfind
    have hc : c' = c := by simpa using List.find?_some hfind
    subst hc
    have hrooted := (mem_order_build hg).1 (List.mem_map_of_mem hmem)
    rw [get?, hfind, if_pos hrooted, ← eq_ofClass_of_mem_entries hg hmem]
    rfl

theorem getByName?_nameOf (hg : g.WellFormed) (hc : c < g.size) :
    (build g).getByName? g (g.nameOf c) = (build g).get? c := by
  rw [getByName?, hg.indexOf?_nameOf hc]
  rfl

end LayoutTable

end CoolHierarchy
