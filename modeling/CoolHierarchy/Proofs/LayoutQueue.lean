import CoolHierarchy.Proofs.Dispatch

/-!
# The search for all layouts

All layouts can be found in one search. It takes the class whose turn it is from the front of a
queue, extends the layout that it has found for the parent, writes the result down by class, and
puts the children at the end of the queue (`LayoutSearch`). It never asks whether it has been to a
class before. Links may form cycles, but none of them hangs on the root, so the search ends, after
one turn for each rooted class.

* `Sound.take`, `Sound.exists_turn?_eq_some`: what one turn preserves.
* `Sound.exists_run?_eq`: all turns, from any point of the search.
* `layoutTable_agrees`: what is found is the layout table and agrees with the single layouts.
-/

namespace CoolHierarchy

/-- A layout whose dispatch table has an index. -/
structure IndexedLayout where
  className : String := ""
  attributes : List AttributeRow := []
  dispatch : IndexedTable := {}
deriving DecidableEq, Repr, Inhabited

namespace IndexedLayout

variable {g : Hierarchy} {l : Layout} {i : IndexedLayout} {c p : ClassIndex} {d : ClassDeclaration}

/-- Adds what a declaration has. -/
def add? (i : IndexedLayout) (d : ClassDeclaration) : Option IndexedLayout := do
  let owner := d.name.name
  let dispatch ← d.methods.foldlM (fun (t : IndexedTable) m => t.define? owner m) i.dispatch
  return { className := owner
           attributes := d.attributes.foldl (Layout.appendAttribute owner) i.attributes
           dispatch }

/-- Adds what a class declares. There is nothing to add for an index that no class has. -/
def extend? (g : Hierarchy) (i : IndexedLayout) (c : ClassIndex) : Option IndexedLayout :=
  (g.declaration? c).bind i.add?

/-- The layout at the end of a path from the root down. -/
def ofPath? (g : Hierarchy) (path : List ClassIndex) : Option IndexedLayout :=
  path.foldlM (extend? g) {}

/-- The layout of a rooted class. -/
def ofClass? (g : Hierarchy) (c : ClassIndex) : Option IndexedLayout :=
  ofPath? g (g.links.lineage c).reverse

/-- The layout of a class by name, computed for this class alone. -/
def compute? (g : Hierarchy) (name : String) : Option (Except QueryError IndexedLayout) :=
  match g.lookup name >>= g.rootPath with
  | .ok path => (ofPath? g path).map .ok
  | .error e => some (.error e)

/-- A layout is another one with an index. -/
structure Agrees (l : Layout) (i : IndexedLayout) : Prop where
  className : i.className = l.className
  attributes : i.attributes = l.attributes
  dispatch : i.dispatch.Agrees l.methods

theorem agrees_empty : Agrees .empty {} :=
  ⟨rfl, rfl, rfl, fun _ => rfl⟩

theorem Agrees.exists_add?_eq_some (h : Agrees l i) (d : ClassDeclaration) :
    ∃ i', i.add? d = some i' ∧ Agrees (l.extend d) i' := by
  obtain ⟨t, ht, hagrees⟩ :=
    h.dispatch.exists_foldlM_define?_eq_some (d.methods.map fun m => (d.name.name, m))
  rw [List.foldlM_map] at ht
  rw [Layout.bindAll, List.foldl_map] at hagrees
  have hadd : i.add? d = some
      { className := d.name.name
        attributes := d.attributes.foldl (Layout.appendAttribute d.name.name) i.attributes
        dispatch := t } := by
    rw [add?, ht]
    rfl
  refine ⟨_, hadd, rfl, ?_, hagrees⟩
  rw [h.attributes]
  rfl

/-- Along a path of registered classes no index leads out of its slots. -/
theorem exists_ofPath?_eq_some {path : List ClassIndex} (hpath : ∀ c ∈ path, c < g.size) :
    ∃ i, ofPath? g path = some i ∧ Agrees (Layout.ofPath (path.filterMap g.declaration?)) i := by
  induction path using List.reverseRecOn with
  | nil => exact ⟨{}, rfl, agrees_empty⟩
  | append_singleton path c ih =>
    obtain ⟨i, hi, hagrees⟩ := ih fun a ha => hpath a (List.mem_append_left _ ha)
    obtain ⟨d, hd⟩ := Hierarchy.exists_declaration (hpath c List.mem_concat_self)
    obtain ⟨i', hi', hagrees'⟩ := hagrees.exists_add?_eq_some d
    refine ⟨i', ?_, ?_⟩
    · rw [ofPath?, List.foldlM_append, ← ofPath?, hi]
      show (i.extend? g c).bind pure = some i'
      rw [extend?, hd, Option.bind_some, hi']
      rfl
    · rw [List.filterMap_append, Layout.ofPath_append, List.filterMap_cons_some hd]
      exact hagrees'

theorem exists_ofClass?_eq_some (hg : g.WellFormed) (hrooted : g.isRooted c = true) :
    ∃ i, ofClass? g c = some i ∧ Agrees (Layout.ofClass g c) i := by
  have hc : c < g.size := hg.lt_size_of_isRooted hrooted
  refine exists_ofPath?_eq_some fun a ha => ?_
  exact hg.lt_size_of_reaches hc (Links.mem_lineage.1 (List.mem_reverse.1 ha))

theorem ofClass?_root (hg : g.WellFormed) : ofClass? g Links.root = extend? g {} Links.root := by
  have hlineage : g.links.lineage Links.root = [Links.root] := Links.lineage_of_top hg.root_top
  rw [ofClass?, hlineage, ofPath?, List.reverse_singleton, List.foldlM_cons]
  exact bind_pure _

theorem ofClass?_of_parent? (hg : g.WellFormed) (hp : g.parent? c = some p)
    (hrooted : g.isRooted p = true) : ofClass? g c = (ofClass? g p).bind (extend? g · c) := by
  have hlineage := Links.lineage_of_parent? hp (Links.isRooted_iff.1 hrooted) hg.root_top
  rw [ofClass?, hlineage, ofPath?, List.reverse_cons, List.foldlM_append]
  refine bind_congr fun i => ?_
  exact bind_pure _

/-- What the computation of a single layout answers for a registered class. -/
theorem compute?_nameOf (hg : g.WellFormed) (hc : c < g.size) :
    compute? g (g.nameOf c) =
      if g.isRooted c then (ofClass? g c).map .ok
      else some (.error (.brokenChain (g.nameOf c))) := by
  rw [compute?, hg.lookup_nameOf hc]
  show (match g.rootPath c with
    | .ok path => (ofPath? g path).map Except.ok
    | .error e => some (.error e)) = _
  rw [Hierarchy.rootPath]
  by_cases hrooted : g.isRooted c = true
  · rw [if_pos hrooted, if_pos hrooted]
    rfl
  · rw [if_neg hrooted, if_neg hrooted]

end IndexedLayout

/-- What a search for all layouts writes down: the classes that wait for their turn, the layouts
that it has found, and the classes that had their turn. -/
structure LayoutSearch where
  queue : List ClassIndex
  layouts : Std.HashMap ClassIndex IndexedLayout := ∅
  order : List ClassIndex := []

namespace LayoutSearch

/-- A search that has not begun yet. -/
def start : LayoutSearch := { queue := [Links.root] }

/-- The layout that a class adds to, which is empty when there is none for a parent. -/
def above (g : Hierarchy) (s : LayoutSearch) (c : ClassIndex) : IndexedLayout :=
  ((g.parent? c).bind fun p => s.layouts[p]?).getD {}

/-- The search after the turn of a class, which was the one before the rest of the queue. -/
def take (g : Hierarchy) (s : LayoutSearch) (c : ClassIndex) (rest : List ClassIndex)
    (layout : IndexedLayout) : LayoutSearch :=
  { queue := rest ++ g.children c
    layouts := s.layouts.insert c layout
    order := s.order ++ [c] }

def turn? (g : Hierarchy) (s : LayoutSearch) (c : ClassIndex) (rest : List ClassIndex) :
    Option LayoutSearch :=
  ((s.above g c).extend? g c).map (s.take g c rest)

/-- Takes turns until nothing waits. There is no outcome when the turns run out before. -/
def run? (g : Hierarchy) (turns : Nat) (s : LayoutSearch) : Option LayoutSearch :=
  match s.queue with
  | [] => some s
  | c :: rest =>
    match turns with
    | 0 => none
    | n + 1 => (s.turn? g c rest).bind (run? g n)

def get? (s : LayoutSearch) (c : ClassIndex) : Option IndexedLayout :=
  s.layouts[c]?

def getByName? (s : LayoutSearch) (g : Hierarchy) (name : String) : Option IndexedLayout := do
  s.get? (← g.indexOf? name)

/-- The layouts in the order in which they were found. -/
def listed (s : LayoutSearch) : List IndexedLayout :=
  s.order.filterMap s.get?

variable {g : Hierarchy} {s : LayoutSearch} {c : ClassIndex} {rest : List ClassIndex} {n : Nat}

theorem run?_of_end (hqueue : s.queue = []) : run? g n s = some s := by
  unfold run?
  rw [hqueue]

theorem run?_zero (hqueue : s.queue = c :: rest) : run? g 0 s = none := by
  unfold run?
  rw [hqueue]

theorem run?_succ (hqueue : s.queue = c :: rest) :
    run? g (n + 1) s = (s.turn? g c rest).bind (run? g n) := by
  rw [run?, hqueue]

/-- The classes that had their turn are the front of the table, and what waits besides them are
their children and the root. Each of them has its layout. -/
structure Sound (g : Hierarchy) (s : LayoutSearch) : Prop where
  order : s.order <+: (LayoutTable.build g).order
  queue : s.order ++ s.queue = Links.root :: s.order.flatMap g.children
  layouts : ∀ c, s.get? c = if c ∈ s.order then IndexedLayout.ofClass? g c else none

namespace Sound

theorem start (g : Hierarchy) : Sound g start where
  order := List.nil_prefix
  queue := rfl
  layouts := fun _ => Std.HashMap.getElem?_empty

/-- The class whose turn it is has a parent that had its turn, or is the root. -/
theorem parent_done (h : Sound g s) (hqueue : s.queue = c :: rest) :
    c = Links.root ∨ ∃ p ∈ s.order, g.parent? c = some p := by
  have heq := h.queue
  rw [hqueue] at heq
  cases horder : s.order with
  | nil =>
    rw [horder] at heq
    exact .inl (List.cons.inj heq).1
  | cons a done =>
    rw [horder, List.cons_append] at heq
    have hmem : c ∈ (a :: done).flatMap g.children := by
      rw [← (List.cons.inj heq).2]
      exact List.mem_append_right _ List.mem_cons_self
    obtain ⟨p, hp, hc⟩ := List.mem_flatMap.1 hmem
    exact .inr ⟨p, hp, Links.mem_children.1 hc⟩

section WellFormed

variable (hg : g.WellFormed)
include hg

/-- With those that wait it is the front of the table too. -/
theorem order_append_queue (h : Sound g s) :
    s.order ++ s.queue <+: (LayoutTable.build g).order := by
  obtain ⟨left, hleft⟩ := h.order
  refine ⟨left.flatMap g.children, ?_⟩
  rw [LayoutTable.order_build_eq_cons hg, h.queue, ← hleft, List.flatMap_append]
  rfl

theorem isRooted (h : Sound g s) (hc : c ∈ s.order) : g.isRooted c = true :=
  (LayoutTable.mem_order_build hg).1 (h.order.subset hc)

/-- When nothing waits every class of the table had its turn. -/
theorem order_eq_of_end (h : Sound g s) (hqueue : s.queue = []) :
    s.order = (LayoutTable.build g).order := by
  have hall : s.order = Links.root :: s.order.flatMap g.children := by
    rw [← h.queue, hqueue, List.append_nil]
  have hroot : Links.root ∈ s.order := by
    rw [hall]
    exact List.mem_cons_self
  have hclosed : ∀ p ∈ s.order, g.links.children p ⊆ s.order := by
    intro p hp c hc
    rw [hall]
    exact List.mem_cons_of_mem _ (List.mem_flatMap.2 ⟨p, hp, hc⟩)
  have hsub : (LayoutTable.build g).order ⊆ s.order := fun c hc =>
    Links.mem_of_closed hroot hclosed ((LayoutTable.mem_order_build hg).1 hc)
  have hnodup := LayoutTable.nodup_order_build hg
  exact h.order.eq_of_length_le (List.subperm_of_subset hnodup hsub).length_le

/-- The turn of a class finds its layout. -/
theorem extend?_above (h : Sound g s) (hqueue : s.queue = c :: rest) :
    (s.above g c).extend? g c = IndexedLayout.ofClass? g c := by
  rcases h.parent_done hqueue with rfl | ⟨p, hp, hparent⟩
  · have htop : g.parent? Links.root = none := hg.root_top
    rw [above, htop, IndexedLayout.ofClass?_root hg]
    rfl
  · have hrooted := h.isRooted hg hp
    obtain ⟨i, hi, _⟩ := IndexedLayout.exists_ofClass?_eq_some hg hrooted
    have hfound := h.layouts p
    rw [if_pos hp, hi, get?] at hfound
    rw [above, hparent, Option.bind_some, hfound,
      IndexedLayout.ofClass?_of_parent? hg hparent hrooted, hi]
    rfl

/-- The class whose turn it is is the next one of the table. -/
theorem order_concat (h : Sound g s) (hqueue : s.queue = c :: rest) :
    s.order ++ [c] <+: (LayoutTable.build g).order := by
  refine List.IsPrefix.trans ?_ (h.order_append_queue hg)
  rw [hqueue]
  exact (List.prefix_append_right_inj _).2 ⟨rest, rfl⟩

theorem take (h : Sound g s) (hqueue : s.queue = c :: rest) {layout : IndexedLayout}
    (hlayout : IndexedLayout.ofClass? g c = some layout) : Sound g (s.take g c rest layout) where
  order := h.order_concat hg hqueue
  queue := by
    have heq := h.queue
    rw [hqueue] at heq
    show s.order ++ [c] ++ (rest ++ g.children c) =
      Links.root :: (s.order ++ [c]).flatMap g.children
    rw [List.flatMap_append, List.flatMap_singleton, ← List.cons_append, ← heq]
    simp
  layouts := by
    intro a
    show (s.layouts.insert c layout)[a]? = if a ∈ s.order ++ [c] then _ else _
    rw [Std.HashMap.getElem?_insert]
    by_cases hac : a = c
    · subst hac
      rw [if_pos (beq_self_eq_true a), if_pos List.mem_concat_self, hlayout]
    · have hmem : a ∈ s.order ++ [c] ↔ a ∈ s.order := by simp [hac]
      rw [if_neg (by simpa using Ne.symm hac), if_congr hmem rfl rfl]
      exact h.layouts a

/-- What one turn preserves. -/
theorem exists_turn?_eq_some (h : Sound g s) (hqueue : s.queue = c :: rest) :
    ∃ s', s.turn? g c rest = some s' ∧ Sound g s' ∧ s'.order = s.order ++ [c] := by
  have hrooted : g.isRooted c = true :=
    (LayoutTable.mem_order_build hg).1 ((h.order_concat hg hqueue).subset List.mem_concat_self)
  obtain ⟨layout, hlayout, _⟩ := IndexedLayout.exists_ofClass?_eq_some hg hrooted
  refine ⟨s.take g c rest layout, ?_, h.take hg hqueue hlayout, rfl⟩
  rw [turn?, h.extend?_above hg hqueue, hlayout, Option.map_some]

/-- The search ends after as many turns as there are classes left, and not before. -/
theorem exists_run?_eq {s : LayoutSearch} (h : Sound g s) :
    ∃ final : LayoutSearch, Sound g final ∧ final.order = (LayoutTable.build g).order ∧
      ∀ n, run? g n s =
        if (LayoutTable.build g).order.length ≤ s.order.length + n then some final else none := by
  cases hqueue : s.queue with
  | nil =>
    have horder := h.order_eq_of_end hg hqueue
    refine ⟨s, h, horder, fun n => ?_⟩
    rw [run?_of_end hqueue, if_pos (horder ▸ Nat.le_add_right _ _)]
  | cons c rest =>
    obtain ⟨s', hturn, hsound, horder⟩ := h.exists_turn?_eq_some hg hqueue
    have hlength : s'.order.length = s.order.length + 1 := by
      rw [horder, List.length_append, List.length_singleton]
    have hle := hsound.order.length_le
    obtain ⟨final, hfinal, hall, hrun⟩ := hsound.exists_run?_eq
    refine ⟨final, hfinal, hall, fun n => ?_⟩
    cases n with
    | zero => rw [run?_zero hqueue, if_neg (by omega)]
    | succ n =>
      rw [run?_succ hqueue, hturn, Option.bind_some, hrun, hlength, Nat.add_assoc, Nat.add_comm 1]
termination_by (LayoutTable.build g).order.length - s.order.length
decreasing_by omega

end WellFormed

end Sound

/-! ## What has been found -/

theorem getByName?_nameOf (hg : g.WellFormed) (hc : c < g.size) :
    s.getByName? g (g.nameOf c) = s.get? c := by
  rw [getByName?, hg.indexOf?_nameOf hc]
  rfl

section Found

variable (hg : g.WellFormed) (h : Sound g s) (horder : s.order = (LayoutTable.build g).order)
include hg h horder

/-- A search that is through has the layouts of the rooted classes. -/
theorem get?_of_order_eq (c : ClassIndex) :
    s.get? c = if g.isRooted c then IndexedLayout.ofClass? g c else none := by
  rw [h.layouts, horder]
  exact if_congr (LayoutTable.mem_order_build hg) rfl rfl

theorem agrees_get? (c : ClassIndex) :
    Option.Rel IndexedLayout.Agrees ((LayoutTable.build g).get? c) (s.get? c) := by
  rw [LayoutTable.get?_build hg, get?_of_order_eq hg h horder]
  by_cases hrooted : g.isRooted c = true
  · obtain ⟨i, hi, hagrees⟩ := IndexedLayout.exists_ofClass?_eq_some hg hrooted
    rw [if_pos hrooted, if_pos hrooted, hi]
    exact .some hagrees
  · rw [if_neg hrooted, if_neg hrooted]
    exact .none

theorem forall₂_listed :
    List.Forall₂ IndexedLayout.Agrees (LayoutTable.build g).layouts s.listed := by
  have hall : ∀ e ∈ (LayoutTable.build g).entries,
      ∃ i, s.get? e.1 = some i ∧ IndexedLayout.Agrees e.2 i := by
    rintro ⟨c, layout⟩ he
    have hrooted := (LayoutTable.mem_order_build hg).1 (List.mem_map_of_mem he)
    rw [get?_of_order_eq hg h horder, if_pos hrooted, LayoutTable.eq_ofClass_of_mem_entries hg he]
    exact IndexedLayout.exists_ofClass?_eq_some hg hrooted
  rw [listed, horder, LayoutTable.order, LayoutTable.layouts]
  generalize (LayoutTable.build g).entries = entries at hall
  induction entries with
  | nil => exact .nil
  | cons e entries ih =>
    obtain ⟨i, hi, hagrees⟩ := hall e List.mem_cons_self
    rw [List.map_cons, List.map_cons, List.filterMap_cons_some hi]
    exact .cons hagrees (ih fun e he => hall e (List.mem_cons_of_mem _ he))

/-- By name the search has what the computation of a single layout answers. -/
theorem compute?_nameOf (hc : c < g.size) :
    IndexedLayout.compute? g (g.nameOf c) =
      some ((s.getByName? g (g.nameOf c)).elim (.error (.brokenChain (g.nameOf c))) .ok) := by
  rw [IndexedLayout.compute?_nameOf hg hc, getByName?_nameOf hg hc, get?_of_order_eq hg h horder]
  by_cases hrooted : g.isRooted c = true
  · obtain ⟨i, hi, _⟩ := IndexedLayout.exists_ofClass?_eq_some hg hrooted
    rw [if_pos hrooted, if_pos hrooted, hi]
    rfl
  · rw [if_neg hrooted, if_neg hrooted]
    rfl

end Found

end LayoutSearch

/-- The layout table of any program, and the search that finds it. The table lists the rooted
classes, each once, in level order, and its answer for a registered class is what the single
computation of its layout answers: the same layout, or none where that fails because the class is
not rooted. The search ends after one turn for each class in the table. It has the layouts of the
table, in the order of the table, each with an index of its methods beside it, and it has for every
registered class exactly what the single computation with an index answers. -/
theorem layoutTable_agrees (entryClass : String) (ds : List ClassDeclaration) :
    let g := (Analysis.build entryClass ds).hierarchy
    let t := LayoutTable.build g
    t.order.Nodup ∧ (∀ c, c ∈ t.order ↔ c < g.size ∧ g.isRooted c = true) ∧
    g.links.InLevelOrder t.order ∧
    (∀ c < g.size,
      (∀ layout, Layout.compute g (g.nameOf c) = .ok layout ↔
        t.getByName? g (g.nameOf c) = some layout) ∧
      (Layout.compute g (g.nameOf c) = .error (.brokenChain (g.nameOf c)) ↔
        t.getByName? g (g.nameOf c) = none)) ∧
    ∃ found : LayoutSearch,
      (∀ turns, LayoutSearch.run? g turns .start =
        if t.order.length ≤ turns then some found else none) ∧
      found.order = t.order ∧ List.Forall₂ IndexedLayout.Agrees t.layouts found.listed ∧
      ∀ c < g.size,
        Option.Rel IndexedLayout.Agrees (t.getByName? g (g.nameOf c))
          (found.getByName? g (g.nameOf c)) ∧
        (∀ layout, IndexedLayout.compute? g (g.nameOf c) = some (.ok layout) ↔
          found.getByName? g (g.nameOf c) = some layout) ∧
        (IndexedLayout.compute? g (g.nameOf c) = some (.error (.brokenChain (g.nameOf c))) ↔
          found.getByName? g (g.nameOf c) = none) := by
  intro g t
  have hg : g.WellFormed := Analysis.wellFormed_build entryClass ds
  have hsize : 0 < g.size := Nat.zero_lt_of_lt hg.root_lt
  obtain ⟨found, hfound, horder, hrun⟩ := (LayoutSearch.Sound.start g).exists_run?_eq hg
  refine ⟨LayoutTable.nodup_order_build hg, ?_, ?_, ?_, found, ?_, horder,
    LayoutSearch.forall₂_listed hg hfound horder, ?_⟩
  · intro c
    rw [LayoutTable.mem_order_build hg]
    exact ⟨fun h => ⟨hg.lt_size_of_isRooted h, h⟩, And.right⟩
  · rw [LayoutTable.order_build hg]
    exact Links.inLevelOrder_flatMap_level hg.root_top hsize
  · intro c hc
    rw [Layout.compute_nameOf hg hc, LayoutTable.getByName?_nameOf hg hc, LayoutTable.get?_build hg]
    by_cases hrooted : g.isRooted c = true
    · simp [hrooted]
    · simp [hrooted]
  · intro turns
    rw [hrun]
    show (if _ ≤ 0 + turns then _ else _) = _
    rw [Nat.zero_add]
  · intro c hc
    rw [LayoutSearch.compute?_nameOf hg hfound horder hc, LayoutTable.getByName?_nameOf hg hc,
      LayoutSearch.getByName?_nameOf hg hc]
    refine ⟨LayoutSearch.agrees_get? hg hfound horder c, ?_⟩
    cases found.get? c with
    | none => simp
    | some layout => simp

/-- `Square` comes before its parent, and its parent before the class above. `Loop` descends from
itself. -/
def unorderedProgram : List ClassDeclaration :=
  [.inheriting (.named "Square") "Rect", .inheriting (.named "Rect") "Shape",
    .withMethod (.named "Shape") "area" [] "Int", .inheriting (.named "Loop") "Loop",
    .inheriting (.named "Main") "IO"]

/-- The search comes to `Square` last, after nine turns. It has the layout of `Square` that is
computed for `Square` alone, with `area` in the slot that `Shape` has it in, and for `Loop` it has
none. -/
theorem layoutTable_unorderedProgram :
    let g := (Analysis.build "Main" unorderedProgram).hierarchy
    let t := LayoutTable.build g
    g.nameOf 5 = "Square" ∧ g.nameOf 8 = "Loop" ∧
    t.order = [0, 1, 2, 3, 4, 7, 9, 6, 5] ∧ g.links.InLevelOrder t.order ∧
    t.getByName? g (g.nameOf 8) = none ∧
    ∃ found, LayoutSearch.run? g 8 .start = none ∧ LayoutSearch.run? g 9 .start = some found ∧
      found.order = t.order ∧ found.getByName? g (g.nameOf 8) = none ∧
      ∃ layout, IndexedLayout.compute? g (g.nameOf 5) = some (.ok layout) ∧
        found.getByName? g (g.nameOf 5) = some layout ∧
        layout.dispatch.byName.lookup "area" = some 3 := by
  intro g t
  obtain ⟨_, _, hlevels, hagree, found, hrun, horder, _, hfound⟩ :=
    layoutTable_agrees "Main" unorderedProgram
  have hlist : t.order = [0, 1, 2, 3, 4, 7, 9, 6, 5] := by decide +kernel
  have hlength : t.order.length = 9 := congrArg List.length hlist
  have hturns : ∀ turns,
      LayoutSearch.run? g turns .start = if 9 ≤ turns then some found else none :=
    hlength ▸ hrun
  have hloop : IndexedLayout.compute? g (g.nameOf 8) =
      some (.error (.brokenChain (g.nameOf 8))) := by
    decide +kernel
  have hslot : ((IndexedLayout.compute? g (g.nameOf 5)).bind Except.toOption).bind
      (fun layout => layout.dispatch.byName.lookup "area") = some 3 := by
    decide +kernel
  obtain ⟨layout, hfive, harea⟩ := Option.bind_eq_some_iff.1 hslot
  have hsquare : IndexedLayout.compute? g (g.nameOf 5) = some (.ok layout) := by
    obtain ⟨answer, hanswer, hok⟩ := Option.bind_eq_some_iff.1 hfive
    cases answer with
    | error e => cases hok
    | ok layout' =>
      cases hok
      exact hanswer
  obtain ⟨_, hbroken⟩ := hagree 8 (by decide +kernel)
  obtain ⟨_, _, hnone⟩ := hfound 8 (by decide +kernel)
  obtain ⟨_, hsome, _⟩ := hfound 5 (by decide +kernel)
  exact ⟨by decide +kernel, by decide +kernel, hlist, hlevels, hbroken.1 (by decide +kernel), found,
    hturns 8, hturns 9, horder, hnone.1 hloop, layout, hsquare, (hsome layout).1 hsquare, harea⟩

end CoolHierarchy
