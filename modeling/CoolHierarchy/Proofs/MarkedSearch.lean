import CoolHierarchy.Proofs.CycleEntry
import CoolHierarchy.Proofs.Marks

/-!
# Searching cycles with marks

No class needs to be looked at twice: a search can mark the classes that it has been to, keep the
walk under way as a path with marks of its own, and stop where it meets a mark (`CycleSearch`). It
never looks outside of its tables, and it lists the same cycles in the same order.

* `Walks.exists_follow?_eq_some`: one walk, from what is known when it sets out to what is known
  when it ends.
* `CycleSearch.cycles?_eq`: all walks.
* `cycles_exact`: what the list of all cycles is.
-/

namespace CoolHierarchy

/-- What a search writes down: the classes that it has been to, those on the walk under way, that
walk, and the cycles that it has found. -/
structure CycleSearch where
  visited : Array Bool
  onPath : Array Bool
  path : List ClassIndex := []
  found : List (List ClassIndex) := []

namespace CycleSearch

/-- A search among `n` classes that has not begun yet. -/
def start (n : Nat) : CycleSearch :=
  { visited := Array.replicate n false, onPath := Array.replicate n false }

/-- Marks the next class of the walk. -/
def visit (s : CycleSearch) (c : ClassIndex) : CycleSearch :=
  { s with
    visited := s.visited.setIfInBounds c true
    onPath := s.onPath.setIfInBounds c true
    path := s.path ++ [c] }

/-- Takes down the cycle that a walk closes where it comes back to its own path. -/
def close (s : CycleSearch) (c : ClassIndex) : CycleSearch :=
  match s.path.idxOf? c with
  | some i => { s with found := s.found ++ [s.path.drop i] }
  | none => s

/-- Leaves the path of a walk. -/
def clear (s : CycleSearch) : CycleSearch :=
  { s with
    onPath := s.path.foldl (fun marks c => marks.setIfInBounds c false) s.onPath
    path := [] }

theorem count_visit_lt {s : CycleSearch} {c : ClassIndex} (h : s.visited[c]? = some false) :
    (s.visit c).visited.count false < s.visited.count false := by
  obtain ⟨hc, hfalse⟩ := Array.getElem?_eq_some_iff.1 h
  have hpos : 0 < s.visited.count false :=
    Array.count_pos_iff.2 (hfalse ▸ Array.getElem_mem hc)
  have hcount : (s.visit c).visited.count false = s.visited.count false - 1 := by
    unfold visit
    rw [Array.setIfInBounds_def, dif_pos hc, Array.count_set hc, hfalse]
    rfl
  omega

/-- Walks on from a possible class until the walk ends or meets a mark. There is no mark to look at
for an index that is not in the tables. -/
def follow? (l : Links) (s : CycleSearch) : Option ClassIndex → Option CycleSearch
  | none => some s
  | some c =>
    match s.onPath[c]?, _hnew : s.visited[c]? with
    | some true, _ => some (s.close c)
    | some false, some true => some s
    | some false, some false => follow? l (s.visit c) (l.parent? c)
    | _, _ => none
termination_by s.visited.count false
decreasing_by exact count_visit_lt _hnew

/-- Starts a walk from a class that the search has not been to. -/
def searchFrom? (l : Links) (s : CycleSearch) (c : ClassIndex) : Option CycleSearch :=
  match s.visited[c]? with
  | none => none
  | some true => some s
  | some false => (follow? l s (some c)).map clear

/-- All cycles, found with marks. -/
def cycles? (l : Links) : Option (List (List ClassIndex)) :=
  ((List.range l.size).foldlM (searchFrom? l) (start l.size)).map found

variable {l : Links} {s : CycleSearch} {c e : ClassIndex} {n : Nat}

/-! ## One walk -/

/-- The search has been along the walks from all classes below `n`. -/
structure Sound (l : Links) (n : Nat) (s : CycleSearch) : Prop where
  visited : Marks s.visited l.size fun c => ∃ b < n, l.Reaches b c
  onPath : Marks s.onPath l.size (· ∈ s.path)
  found : s.found = l.cyclesBelow n

/-- The search has been along the walks from all classes below `n`, and on the walk from `n` it has
come to where `next` is the next class. -/
structure Walks (l : Links) (n : Nat) (s : CycleSearch) (next : Option ClassIndex) : Prop where
  visited : Marks s.visited l.size fun c => (∃ b < n, l.Reaches b c) ∨ c ∈ s.path
  onPath : Marks s.onPath l.size (· ∈ s.path)
  found : s.found = l.cyclesBelow n
  nodup : s.path.Nodup
  new : ∀ c ∈ s.path, ¬ ∃ b < n, l.Reaches b c
  lineage : l.lineage n = s.path ++ l.walk (l.size + 1 - s.path.length) next

theorem close_of_path_eq {lead tail : List ClassIndex} (hpath : s.path = lead ++ c :: tail)
    (hlead : c ∉ lead) : s.close c = { s with found := s.found ++ [c :: tail] } := by
  have hbefore : lead.findIdx? (· == c) = none := by
    rw [List.findIdx?_eq_none_iff]
    intro d hd
    exact beq_eq_false_iff_ne.2 fun heq => hlead (heq ▸ hd)
  have hplace : s.path.idxOf? c = some lead.length := by
    rw [hpath, List.idxOf?, List.findIdx?_append, hbefore, List.findIdx?_cons]
    simp
  unfold close
  rw [hplace]
  simp only [hpath, List.drop_left]

theorem exists_lt_succ_iff {p : Nat → Prop} : (∃ b < n + 1, p b) ↔ (∃ b < n, p b) ∨ p n := by
  simp only [Nat.lt_succ_iff_lt_or_eq, or_and_right, exists_or, exists_eq_left]

namespace Walks

variable {next : Option ClassIndex}

/-- When all that is left of the walk is marked, the whole walk is. -/
theorem visited_succ (h : Walks l n s next)
    (hrest : ∀ c ∈ l.walk (l.size + 1 - s.path.length) next,
      (∃ b < n, l.Reaches b c) ∨ c ∈ s.path) :
    Marks s.visited l.size fun c => ∃ b < n + 1, l.Reaches b c := by
  refine h.visited.congr fun c => ?_
  rw [exists_lt_succ_iff, ← Links.mem_lineage, h.lineage, List.mem_append]
  constructor
  · rintro (hb | hc)
    · exact .inl hb
    · exact .inr (.inl hc)
  · rintro (hb | hc | hc)
    · exact .inl hb
    · exact .inr hc
    · exact hrest c hc

/-- When the cycle that the walk enters was come to before, the walk finds nothing. -/
theorem found_succ (h : Walks l n s next)
    (hentry : ∀ e, l.Enters n e → ∃ b < n, l.Reaches b e) :
    s.found = l.cyclesBelow (n + 1) := by
  have hknown : l.noteCycle (l.cyclesBelow n) n = l.cyclesBelow n := by
    refine Links.noteCycle_of_known fun e he => ?_
    have hent := Links.enters_of_entrance? he
    obtain ⟨b, hb, hbe⟩ := hentry e hent
    exact Links.exists_mem_cyclesBelow hb hbe hent.onCycle
  rw [h.found, Links.cyclesBelow_succ, hknown]

/-- A path has classes of the tables only, none of them twice, so the walk is not cut yet. -/
theorem length_path_le (h : Walks l n s next) : s.path.length ≤ l.size := by
  have hsub : s.path ⊆ List.range l.size := fun c hc => List.mem_range.2 (h.onPath.lt hc)
  have hlen := (List.subperm_of_subset h.nodup hsub).length_le
  rwa [List.length_range] at hlen

theorem lineage_some (h : Walks l n s (some c)) :
    l.lineage n = s.path ++ c :: l.walk (l.size - s.path.length) (l.parent? c) := by
  rw [h.lineage, Nat.succ_sub h.length_path_le]
  rfl

theorem reaches_next (h : Walks l n s (some c)) : l.Reaches n c := by
  rw [← Links.mem_lineage, h.lineage_some]
  exact List.mem_append_right _ List.mem_cons_self

/-- What is left of a walk is above its next class. -/
theorem reaches_of_mem_rest (h : Walks l n s (some c))
    (he : e ∈ l.walk (l.size + 1 - s.path.length) (some c)) : l.Reaches c e := by
  rw [Nat.succ_sub h.length_path_le] at he
  exact Links.reaches_of_lineage_eq_append h.lineage_some he

/-- A walk that ends finds nothing. -/
theorem sound_of_end (h : Walks l n s none) : Sound l (n + 1) s where
  visited := h.visited_succ fun c hc => absurd hc (by simp [Links.walk_none])
  onPath := h.onPath
  found := by
    have hlineage : l.lineage n = s.path := by rw [h.lineage, Links.walk_none, List.append_nil]
    obtain ⟨t, ht, htop⟩ := Links.exists_top_of_nodup (hlineage.symm ▸ h.nodup)
    refine h.found_succ fun e he => ?_
    exact absurd (he.reaches.reaches_top ht htop) (he.onCycle.not_reaches_top htop)

/-- A walk that comes to where an earlier one has been finds nothing either. -/
theorem sound_of_met (h : Walks l n s (some c)) (hmet : ∃ b < n, l.Reaches b c) :
    Sound l (n + 1) s := by
  obtain ⟨b, hb, hbc⟩ := hmet
  refine ⟨h.visited_succ fun e he => ?_, h.onPath, h.found_succ fun e he => ?_⟩
  · exact .inl ⟨b, hb, hbc.trans (h.reaches_of_mem_rest he)⟩
  · have hce : l.Reaches c e := Links.reaches_of_onCycle h.reaches_next he.reaches he.onCycle
    exact ⟨b, hb, hbc.trans hce⟩

/-- A walk that comes back to its own path has found the cycle that it enters there. -/
theorem sound_of_back (h : Walks l n s (some c)) (hc : c ∈ s.path) :
    Sound l (n + 1) (s.close c) := by
  obtain ⟨lead, tail, hpath, hlead⟩ := List.eq_append_cons_of_mem hc
  have hentry : l.entrance? n = some c := by
    have hback : c ∈ ([] : List ClassIndex) ∨ c ∈ s.path := .inr hc
    exact Links.firstRepeat?_eq_some_iff.2
      ⟨s.path, _, h.lineage_some, h.nodup, fun _ _ => List.not_mem_nil, hback⟩
  have hnodup : (c :: tail).Nodup := (hpath ▸ h.nodup).of_append_right
  have hcycle : l.IsCycle (c :: tail) :=
    Links.isCycle_of_lineage_eq (hpath ▸ h.lineage_some) hnodup
  have hfrom : l.cycleFrom c = c :: tail := by
    have hat := (Links.onCycle_of_entrance? hentry).isCycle_cycleFrom
    exact hat.eq_of_head? hcycle rfl
  -- A known cycle was come to from below `n`, but the path has new classes only.
  have hnew : ¬ ∃ cycle ∈ l.cyclesBelow n, c ∈ cycle := by
    rintro ⟨cycle, hmem, hin⟩
    exact h.new c hc (Links.exists_lt_reaches_of_mem_cyclesBelow hmem hin)
  rw [close_of_path_eq hpath hlead]
  refine ⟨h.visited_succ fun e he => ?_, h.onPath, ?_⟩
  · have hin : e ∈ c :: tail :=
      hcycle.mem_of_reaches List.mem_cons_self (h.reaches_of_mem_rest he)
    exact .inr (hpath ▸ List.mem_append_right lead hin)
  · rw [Links.cyclesBelow_succ, Links.noteCycle_of_new hentry hnew, hfrom, h.found]

/-- A class that is met for the first time comes onto the path. -/
theorem visit (h : Walks l n s (some c)) (hc : c < l.size) (hnew : ¬ ∃ b < n, l.Reaches b c)
    (hpath : c ∉ s.path) : Walks l n (s.visit c) (l.parent? c) where
  visited := (h.visited.mark hc).congr fun d => by
    rw [CycleSearch.visit, List.mem_append, List.mem_singleton, or_assoc]
  onPath := (h.onPath.mark hc).congr fun d => by
    rw [CycleSearch.visit, List.mem_append, List.mem_singleton]
  found := h.found
  nodup := List.nodup_append.2 ⟨h.nodup, List.nodup_singleton c, fun d hd e he heq =>
    hpath (List.mem_singleton.1 he ▸ heq ▸ hd)⟩
  new := by
    intro d hd
    rcases List.mem_append.1 hd with hd | hd
    · exact h.new d hd
    · rw [List.mem_singleton.1 hd]
      exact hnew
  lineage := by
    rw [h.lineage_some, CycleSearch.visit, List.length_append, List.length_singleton,
      Nat.add_sub_add_right, List.append_assoc, List.singleton_append]

end Walks

namespace Sound

theorem start (l : Links) : Sound l 0 (start l.size) where
  visited := (Marks.replicate l.size).congr fun c => by simp
  onPath := (Marks.replicate l.size).congr fun c => by simp [CycleSearch.start]
  found := rfl

theorem clear (h : Sound l n s) : Sound l n s.clear where
  visited := h.visited
  onPath := (h.onPath.foldl_unmark s.path).congr fun c => by simp [CycleSearch.clear]
  found := h.found

/-- When no walk is under way the next one can set out. -/
theorem walks (h : Sound l n s) (hpath : s.path = []) : Walks l n s (some n) where
  visited := h.visited.congr fun c => by simp [hpath]
  onPath := h.onPath
  found := h.found
  nodup := by
    rw [hpath]
    exact List.nodup_nil
  new := by
    rw [hpath]
    exact fun c hc => absurd hc List.not_mem_nil
  lineage := by
    rw [hpath]
    rfl

end Sound

/-! ## All walks -/

section InBounds

variable (hlinks : ∀ c p, l.parent? c = some p → p < l.size)
include hlinks

/-- Wherever a walk has come to, the search gets to the end of it. -/
theorem Walks.exists_follow?_eq_some {next : Option ClassIndex} (h : Walks l n s next)
    (hnext : ∀ c, next = some c → c < l.size) :
    ∃ s', follow? l s next = some s' ∧ Sound l (n + 1) s' := by
  induction s, next using follow?.induct l with
  | case1 s => exact ⟨s, by rw [follow?], h.sound_of_end⟩
  | case2 s c hpath =>
    exact ⟨s.close c, by rw [follow?, hpath], h.sound_of_back ((h.onPath.marked_iff c).1 hpath)⟩
  | case3 s c hvisited hpath =>
    have hmark := (h.visited.marked_iff c).1 hvisited
    have hmet := hmark.resolve_right (h.onPath.not_of_unmarked hpath)
    exact ⟨s, by rw [follow?, hpath, hvisited], h.sound_of_met hmet⟩
  | case4 s c hvisited hpath ih =>
    have hc : c < l.size := hnext c rfl
    have hnew := not_or.1 (h.visited.not_of_unmarked hvisited)
    obtain ⟨s', hfollow, hsound⟩ := ih (h.visit hc hnew.1 hnew.2) (hlinks c)
    exact ⟨s', by rw [follow?, hpath, hvisited, hfollow], hsound⟩
  | case5 s c hback hmet hnew =>
    -- There are marks for every class, so the search does not get stuck.
    have hc : c < l.size := hnext c rfl
    rcases h.onPath.true_or_false hc with hpath | hpath
    · exact (hback hpath).elim
    · rcases h.visited.true_or_false hc with hvisited | hvisited
      · exact (hmet hpath hvisited).elim
      · exact (hnew hpath hvisited).elim

/-- What one class does to the search. -/
theorem Sound.exists_searchFrom?_eq_some (h : Sound l n s) (hpath : s.path = []) (hn : n < l.size) :
    ∃ s', searchFrom? l s n = some s' ∧ Sound l (n + 1) s' ∧ s'.path = [] := by
  have hwalks := h.walks hpath
  unfold searchFrom?
  rcases h.visited.true_or_false hn with hvisited | hvisited
  · rw [hvisited]
    exact ⟨s, rfl, hwalks.sound_of_met ((h.visited.marked_iff n).1 hvisited), hpath⟩
  · rw [hvisited]
    have hnext : ∀ c, some n = some c → c < l.size := fun c hc => Option.some.inj hc ▸ hn
    obtain ⟨s', hfollow, hsound⟩ := hwalks.exists_follow?_eq_some hlinks hnext
    exact ⟨s'.clear, by rw [hfollow, Option.map_some], hsound.clear, rfl⟩

/-- The search gets through all classes. -/
theorem exists_foldlM_searchFrom?_eq_some (hn : n ≤ l.size) :
    ∃ s, (List.range n).foldlM (searchFrom? l) (start l.size) = some s ∧ Sound l n s ∧
      s.path = [] := by
  induction n with
  | zero => exact ⟨start l.size, rfl, .start l, rfl⟩
  | succ n ih =>
    obtain ⟨s, hfold, hsound, hpath⟩ := ih (Nat.le_of_lt hn)
    obtain ⟨s', hstep, hsound', hpath'⟩ := hsound.exists_searchFrom?_eq_some hlinks hpath hn
    refine ⟨s', ?_, hsound', hpath'⟩
    rw [List.range_succ, List.foldlM_append, hfold]
    show (searchFrom? l s n >>= pure) = some s'
    rw [bind_pure, hstep]

/-- When every parent is one of the classes, the search with marks lists the cycles of the links,
in the same order. -/
theorem cycles?_eq : cycles? l = some l.cycles := by
  obtain ⟨s, hfold, hsound, -⟩ := exists_foldlM_searchFrom?_eq_some hlinks (Nat.le_refl l.size)
  unfold cycles?
  rw [hfold, Option.map_some, hsound.found]
  rfl

end InBounds

end CycleSearch

namespace Links

variable {l : Links} {c : ClassIndex}

theorem mem_flatten_cycles : c ∈ l.cycles.flatten ↔ l.OnCycle c := by
  rw [List.mem_flatten]
  constructor
  · rintro ⟨cycle, hcycle, hc⟩
    exact onCycle_of_mem_cycles hcycle hc
  · exact OnCycle.exists_mem_cycles

theorem nodup_flatten_cycles (l : Links) : l.cycles.flatten.Nodup := by
  have hcycles := areCycles_cycles l
  rw [List.nodup_flatten]
  exact ⟨fun cycle hcycle => (hcycles.isCycle cycle hcycle).nodup, hcycles.disjoint⟩

/-- When every parent is one of the classes, the search with marks comes to an end and lists closed
paths. The classes in the lists are those that are on a cycle, each of them once. Every list starts
where the walk from the lowest class below it comes to the cycle, and the lists are in the order of
these lowest classes. -/
theorem cycles_exact (l : Links) (hlinks : ∀ c p, l.parent? c = some p → p < l.size) :
    CycleSearch.cycles? l = some l.cycles ∧ (∀ cycle ∈ l.cycles, l.IsCycle cycle) ∧
      l.cycles.flatten.Nodup ∧ (∀ c, c ∈ l.cycles.flatten ↔ l.OnCycle c) ∧
      ∃ firsts : List ClassIndex, firsts.Pairwise (· < ·) ∧
        List.Forall₂ l.StartsFrom firsts l.cycles := by
  have hcycles := areCycles_cycles l
  obtain ⟨firsts, hrise, -, hstarts⟩ := exists_firsts l l.size
  exact ⟨CycleSearch.cycles?_eq hlinks, hcycles.isCycle, nodup_flatten_cycles l,
    fun _ => mem_flatten_cycles, firsts, hrise, hstarts⟩

/-- A tree, a tail that leads into a cycle of two, a class that is its own parent, and another
cycle of two. -/
def tailAndLoops : Links :=
  ⟨#[none, some 3, some 0, some 4, some 3, some 5, some 7, some 6]⟩

theorem cycles_exact_tailAndLoops :
    (∀ c p, tailAndLoops.parent? c = some p → p < tailAndLoops.size) ∧
      CycleSearch.cycles? tailAndLoops = some [[3, 4], [5], [6, 7]] := by
  have hlinks : ∀ c p, tailAndLoops.parent? c = some p → p < tailAndLoops.size := by
    intro c p hp
    have hc := lt_size_of_parent? hp
    have hall : ∀ c < tailAndLoops.size, ∀ p ∈ tailAndLoops.parent? c, p < tailAndLoops.size := by
      decide
    exact hall c hc p hp
  have hcycles : tailAndLoops.cycles = [[3, 4], [5], [6, 7]] := by decide
  exact ⟨hlinks, hcycles ▸ (cycles_exact tailAndLoops hlinks).1⟩

end Links

end CoolHierarchy
