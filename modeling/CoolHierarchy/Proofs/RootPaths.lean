import CoolHierarchy.Proofs.Linking
import CoolHierarchy.Proofs.Marks
import Mathlib.Data.List.Chain

/-!
# Rooted classes and their paths

Whether a class is rooted need not be found out by a walk of its own. A search can keep the answers
that it has, stop a walk at the first class that has one, and pass that answer on to all classes
that the walk has come by (`RootSearch`). It never looks outside of its tables, and its answers are
right: what holds of the next class of a walk holds of every class on the way to it.

* `RootSearch.Walks.exists_follow?_eq_some`: one walk, from what is known when it sets out to what
  is known when it ends.
* `RootSearch.exists_flags?_eq_some`: all walks.
* `Links.isRootPath_lineage`: what the path from the root to a rooted class is.
* `root_paths_exact`: the flags and the paths of any program.
-/

namespace CoolHierarchy

/-- What a search for the rooted classes writes down: the answers that are known, the classes on the
walk under way, and that walk. -/
structure RootSearch where
  answers : Array (Option Bool)
  onPath : Array Bool
  path : List ClassIndex := []

namespace RootSearch

/-- A search among `n` classes that knows about the root only. -/
def start (n : Nat) : RootSearch :=
  { answers := (Array.replicate n none).setIfInBounds Links.root (some true)
    onPath := Array.replicate n false }

/-- Marks the next class of the walk. -/
def visit (s : RootSearch) (c : ClassIndex) : RootSearch :=
  { s with onPath := s.onPath.setIfInBounds c true, path := s.path ++ [c] }

/-- Ends a walk: all its classes get one answer, and it is taken off the path. -/
def settle (s : RootSearch) (answer : Bool) : RootSearch :=
  { answers := s.path.foldl (fun answers c => answers.setIfInBounds c (some answer)) s.answers
    onPath := s.path.foldl (fun marks c => marks.setIfInBounds c false) s.onPath }

theorem count_visit_lt {s : RootSearch} {c : ClassIndex} (h : s.onPath[c]? = some false) :
    (s.visit c).onPath.count false < s.onPath.count false := by
  obtain ⟨hc, hfalse⟩ := Array.getElem?_eq_some_iff.1 h
  have hpos : 0 < s.onPath.count false :=
    Array.count_pos_iff.2 (hfalse ▸ Array.getElem_mem hc)
  have hcount : (s.visit c).onPath.count false = s.onPath.count false - 1 := by
    unfold visit
    rw [Array.setIfInBounds_def, dif_pos hc, Array.count_set hc, hfalse]
    rfl
  omega

/-- Walks on from a possible class until there is an answer: a known one, or that the walk does not
come to the root because it ends or comes back to its own path. There is nothing to look up for an
index that is not in the tables. -/
def follow? (l : Links) (s : RootSearch) : Option ClassIndex → Option RootSearch
  | none => some (s.settle false)
  | some c =>
    match s.answers[c]?, _hnew : s.onPath[c]? with
    | some (some answer), _ => some (s.settle answer)
    | some none, some true => some (s.settle false)
    | some none, some false => follow? l (s.visit c) (l.parent? c)
    | _, _ => none
termination_by s.onPath.count false
decreasing_by exact count_visit_lt _hnew

/-- Which classes are rooted, found with a walk from each of them in turn. -/
def flags? (l : Links) : Option (Array Bool) :=
  ((List.range l.size).foldlM (fun s c => follow? l s (some c)) (start l.size)).map fun s =>
    s.answers.map fun answer => answer.getD false

/-! ## Tables of answers -/

/-- A table of right answers, in which the classes with a property have one, and the root too. -/
structure Answers (l : Links) (answers : Array (Option Bool)) (P : ClassIndex → Prop) : Prop where
  size_eq : answers.size = l.size
  root : answers[Links.root]? = some (some true)
  right : ∀ c answer, answers[c]? = some (some answer) → answer = l.isRooted c
  known : ∀ c, P c → ∃ answer, answers[c]? = some (some answer)

namespace Answers

variable {l : Links} {answers : Array (Option Bool)} {P Q : ClassIndex → Prop} {c : ClassIndex}
  {answer : Bool}

theorem mono (h : Answers l answers P) (hPQ : ∀ c, Q c → P c) : Answers l answers Q :=
  { h with known := fun c hc => h.known c (hPQ c hc) }

/-- A class that has an answer may be counted among those that have one. -/
theorem also (h : Answers l answers P) (hc : answers[c]? = some (some answer)) :
    Answers l answers fun d => P d ∨ d = c where
  size_eq := h.size_eq
  root := h.root
  right := h.right
  known := by
    rintro d (hd | rfl)
    · exact h.known d hd
    · exact ⟨answer, hc⟩

theorem start (hroot : Links.root < l.size) : Answers l (start l.size).answers fun _ => False where
  size_eq := by simp [RootSearch.start]
  root := by simp [RootSearch.start, hroot]
  right := by
    intro c answer hc
    rw [RootSearch.start, Array.getElem?_setIfInBounds] at hc
    split at hc
    · next hcroot =>
      rw [if_pos (by simpa using hroot)] at hc
      cases hc
      exact (Links.isRooted_iff.2 (hcroot ▸ .refl _)).symm
    · rw [Array.getElem?_replicate] at hc
      split at hc <;> cases hc
  known c hc := hc.elim

theorem getElem?_set (h : Answers l answers P) (hc : c < l.size) (o : Option Bool)
    (d : ClassIndex) :
    (answers.setIfInBounds c o)[d]? = if c = d then some o else answers[d]? := by
  have hlt : c < answers.size := h.size_eq.symm ▸ hc
  rw [Array.getElem?_setIfInBounds]
  simp only [hlt, if_true]

theorem none_or_known (h : Answers l answers P) (hc : c < l.size) :
    answers[c]? = some none ∨ ∃ answer, answers[c]? = some (some answer) := by
  have hlt : c < answers.size := h.size_eq.symm ▸ hc
  rw [Array.getElem?_eq_getElem hlt]
  cases answers[c] with
  | none => exact .inl rfl
  | some answer => exact .inr ⟨answer, rfl⟩

theorem set (h : Answers l answers P) (hc : c < l.size) (hanswer : answer = l.isRooted c) :
    Answers l (answers.setIfInBounds c (some answer)) fun d => P d ∨ d = c where
  size_eq := Array.size_setIfInBounds.trans h.size_eq
  root := by
    rw [h.getElem?_set hc]
    split
    · next hcroot => rw [hanswer, Links.isRooted_iff.2 (hcroot ▸ .refl _)]
    · exact h.root
  right := by
    intro d known hd
    rw [h.getElem?_set hc] at hd
    split at hd
    · next hcd =>
      cases hd
      rw [← hcd]
      exact hanswer
    · exact h.right d known hd
  known := by
    intro d hd
    rw [h.getElem?_set hc]
    split
    · exact ⟨answer, rfl⟩
    · next hcd => exact h.known d (hd.resolve_right (Ne.symm hcd))

theorem foldl_set (h : Answers l answers P) {cs : List ClassIndex} (hcs : ∀ c ∈ cs, c < l.size)
    (hanswer : ∀ c ∈ cs, answer = l.isRooted c) :
    Answers l (cs.foldl (fun answers c => answers.setIfInBounds c (some answer)) answers)
      fun d => P d ∨ d ∈ cs := by
  induction cs generalizing answers P with
  | nil => exact h.mono fun d hd => hd.resolve_right List.not_mem_nil
  | cons c cs ih =>
    have hset := h.set (hcs c List.mem_cons_self) (hanswer c List.mem_cons_self)
    refine (ih hset (fun d hd => hcs d (List.mem_cons_of_mem c hd))
      fun d hd => hanswer d (List.mem_cons_of_mem c hd)).mono fun d hd => ?_
    rw [or_assoc, ← List.mem_cons]
    exact hd

end Answers

/-! ## One walk -/

variable {l : Links} {s : RootSearch} {c : ClassIndex} {n : Nat}

/-- The search has answers for all classes below `n`, and no walk is under way. -/
structure Sound (l : Links) (n : Nat) (s : RootSearch) : Prop where
  answers : Answers l s.answers (· < n)
  onPath : Marks s.onPath l.size fun _ => False
  path : s.path = []

/-- The search has answers for all classes below `n`, and on the walk from `n` it has come to where
`next` is the next class. The links lead there from all classes of the path, and these are rooted
if the next class is. -/
structure Walks (l : Links) (n : Nat) (s : RootSearch) (next : Option ClassIndex) : Prop where
  answers : Answers l s.answers (· < n)
  onPath : Marks s.onPath l.size (· ∈ s.path)
  begins : n ∈ s.path ∨ next = some n
  below : ∀ c ∈ s.path, ∀ e, next = some e → l.Below c e
  same : ∀ c ∈ s.path, l.isRooted c = next.any l.isRooted

/-- A class other than the root is rooted when its parent is. -/
theorem isRooted_of_ne_root (hc : c ≠ Links.root) :
    l.isRooted c = (l.parent? c).any l.isRooted := by
  rw [Bool.eq_iff_iff, Links.isRooted_iff, Option.any_eq_true]
  constructor
  · intro h
    obtain ⟨p, hp, hroot⟩ := h.eq_or_below.resolve_left (Ne.symm hc)
    exact ⟨p, hp, Links.isRooted_iff.2 hroot⟩
  · rintro ⟨p, hp, hroot⟩
    exact .step hp (Links.isRooted_iff.1 hroot)

namespace Walks

variable {next : Option ClassIndex} {answer : Bool}

/-- A walk ends with the right answers when its one answer is right for all classes of the path, and
the class that it set out from is on the path or had an answer before. -/
theorem settle (h : Walks l n s next) (hpath : ∀ c ∈ s.path, answer = l.isRooted c)
    (hn : n ∈ s.path ∨ ∃ known, s.answers[n]? = some (some known)) :
    Sound l (n + 1) (s.settle answer) where
  answers := by
    have hlt : ∀ c ∈ s.path, c < l.size := fun c => h.onPath.lt
    rcases hn with hn | ⟨known, hknown⟩
    · refine (h.answers.foldl_set hlt hpath).mono fun c hc => ?_
      rcases Nat.lt_succ_iff_lt_or_eq.1 hc with hc | rfl
      · exact .inl hc
      · exact .inr hn
    · refine ((h.answers.also hknown).foldl_set hlt hpath).mono fun c hc => ?_
      exact .inl (Nat.lt_succ_iff_lt_or_eq.1 hc)
  onPath := (h.onPath.foldl_unmark s.path).congr fun c => by simp
  path := rfl

/-- A walk that ends has not come by the root. -/
theorem sound_of_end (h : Walks l n s none) : Sound l (n + 1) (s.settle false) :=
  h.settle (fun c hc => (h.same c hc).symm) (.inl (h.begins.resolve_right (by simp)))

/-- A walk that comes to a class with an answer hands it on. -/
theorem sound_of_known (h : Walks l n s (some c)) (hc : s.answers[c]? = some (some answer)) :
    Sound l (n + 1) (s.settle answer) := by
  refine h.settle (fun d hd => ?_) ?_
  · rw [h.same d hd, Option.any_some]
    exact h.answers.right c answer hc
  · rcases h.begins with hn | hn
    · exact .inl hn
    · cases hn
      exact .inr ⟨answer, hc⟩

/-- A walk that comes back to its own path goes round a cycle, and the root is on none. -/
theorem sound_of_back (h : Walks l n s (some c)) (htop : l.parent? Links.root = none)
    (hc : c ∈ s.path) : Sound l (n + 1) (s.settle false) := by
  have hcycle : l.OnCycle c := h.below c hc c rfl
  have hbroken : l.isRooted c = false := by
    rw [← Bool.not_eq_true, Links.isRooted_iff]
    exact hcycle.not_reaches_top htop
  refine h.settle (fun d hd => ?_) ?_
  · rw [h.same d hd, Option.any_some, hbroken]
  · rcases h.begins with hn | hn
    · exact .inl hn
    · cases hn
      exact .inl hc

/-- A class without an answer comes onto the path. -/
theorem visit (h : Walks l n s (some c)) (hc : c < l.size) (hnew : s.answers[c]? = some none) :
    Walks l n (s.visit c) (l.parent? c) where
  answers := h.answers
  onPath := (h.onPath.mark hc).congr fun d => by
    rw [RootSearch.visit, List.mem_append, List.mem_singleton]
  begins := by
    rcases h.begins with hn | hn
    · exact .inl (List.mem_append_left [c] hn)
    · cases hn
      exact .inl (List.mem_append_right s.path (List.mem_singleton_self c))
  below := by
    intro d hd e he
    rcases List.mem_append.1 hd with hd | hd
    · obtain ⟨p, hp, hpc⟩ := h.below d hd c rfl
      exact ⟨p, hp, hpc.trans (.of_parent? he)⟩
    · rw [List.mem_singleton.1 hd]
      exact ⟨e, he, .refl e⟩
  same := by
    have hne : c ≠ Links.root := by
      rintro rfl
      rw [h.answers.root] at hnew
      cases hnew
    intro d hd
    rcases List.mem_append.1 hd with hd | hd
    · rw [h.same d hd, Option.any_some, isRooted_of_ne_root hne]
    · rw [List.mem_singleton.1 hd, isRooted_of_ne_root hne]

end Walks

theorem Sound.start (hroot : Links.root < l.size) : Sound l 0 (start l.size) where
  answers := (Answers.start hroot).mono fun c hc => absurd hc (Nat.not_lt_zero c)
  onPath := .replicate l.size
  path := rfl

/-- When no walk is under way the next one can set out. -/
theorem Sound.walks (h : Sound l n s) : Walks l n s (some n) where
  answers := h.answers
  onPath := h.onPath.congr fun c => by simp [h.path]
  begins := .inr rfl
  below := by
    rw [h.path]
    exact fun c hc => absurd hc List.not_mem_nil
  same := by
    rw [h.path]
    exact fun c hc => absurd hc List.not_mem_nil

/-! ## All walks -/

section InBounds

variable (htop : l.parent? Links.root = none)
  (hlinks : ∀ c p, l.parent? c = some p → p < l.size)
include htop hlinks

/-- Wherever a walk has come to, the search finds its answer. -/
theorem Walks.exists_follow?_eq_some {next : Option ClassIndex} (h : Walks l n s next)
    (hnext : ∀ c, next = some c → c < l.size) :
    ∃ s', follow? l s next = some s' ∧ Sound l (n + 1) s' := by
  induction s, next using follow?.induct l with
  | case1 s => exact ⟨s.settle false, by rw [follow?], h.sound_of_end⟩
  | case2 s c answer hknown =>
    exact ⟨s.settle answer, by rw [follow?, hknown], h.sound_of_known hknown⟩
  | case3 s c hpath hnew =>
    have hc : c ∈ s.path := (h.onPath.marked_iff c).1 hpath
    exact ⟨s.settle false, by rw [follow?, hnew, hpath], h.sound_of_back htop hc⟩
  | case4 s c hpath hnew ih =>
    obtain ⟨s', hfollow, hsound⟩ := ih (h.visit (hnext c rfl) hnew) (hlinks c)
    exact ⟨s', by rw [follow?, hnew, hpath, hfollow], hsound⟩
  | case5 s c hknown hback hopen =>
    -- There is something to look up for every class, so the search does not get stuck.
    have hc : c < l.size := hnext c rfl
    rcases h.answers.none_or_known hc with hnew | ⟨answer, hanswer⟩
    · rcases h.onPath.true_or_false hc with hpath | hpath
      · exact (hback hnew hpath).elim
      · exact (hopen hnew hpath).elim
    · exact (hknown answer hanswer).elim

variable (hroot : Links.root < l.size)
include hroot

/-- The search gets through all classes. -/
theorem exists_foldlM_follow?_eq_some (hn : n ≤ l.size) :
    ∃ s, (List.range n).foldlM (fun s c => follow? l s (some c)) (start l.size) = some s ∧
      Sound l n s := by
  induction n with
  | zero => exact ⟨start l.size, rfl, .start hroot⟩
  | succ n ih =>
    obtain ⟨s, hfold, hsound⟩ := ih (Nat.le_of_lt hn)
    have hnext : ∀ c, some n = some c → c < l.size := fun c hc => Option.some.inj hc ▸ hn
    obtain ⟨s', hfollow, hsound'⟩ := hsound.walks.exists_follow?_eq_some htop hlinks hnext
    refine ⟨s', ?_, hsound'⟩
    rw [List.range_succ, List.foldlM_append, hfold]
    show (follow? l s (some n) >>= pure) = some s'
    rw [bind_pure, hfollow]

/-- When every parent is one of the classes and the root has none, the search ends with a flag for
every class, and the flag is right. -/
theorem exists_flags?_eq_some :
    ∃ flags, flags? l = some flags ∧ flags.size = l.size ∧
      ∀ c < l.size, flags[c]? = some (l.isRooted c) := by
  obtain ⟨s, hfold, hsound⟩ := exists_foldlM_follow?_eq_some htop hlinks hroot (Nat.le_refl l.size)
  refine ⟨s.answers.map fun answer => answer.getD false, by rw [flags?, hfold]; rfl, ?_, ?_⟩
  · rw [Array.size_map, hsound.answers.size_eq]
  · intro c hc
    obtain ⟨answer, hanswer⟩ := hsound.answers.known c hc
    rw [Array.getElem?_map, hanswer, ← hsound.answers.right c answer hanswer]
    rfl

end InBounds

end RootSearch

/-! ## Paths from the root -/

namespace Links

variable {l : Links} {c : ClassIndex}

/-- `path` leads from the root down to a class: it starts with the root and ends with the class,
each class on it is the parent of the next one, and none is on it twice. All that lies above the
class is on it, and following the links any further would add nothing. -/
structure IsRootPath (l : Links) (c : ClassIndex) (path : List ClassIndex) : Prop where
  first : path.head? = some root
  last : path.getLast? = some c
  parent? : path.IsChain fun p d => l.parent? d = some p
  nodup : path.Nodup
  mem_iff : ∀ a, a ∈ path ↔ l.Reaches c a
  uncut : ∀ n, l.size ≤ n → (c :: l.walk n (l.parent? c)).reverse = path

/-- The walk from a rooted class, turned around, is the path to it. -/
theorem isRootPath_lineage (hc : l.Reaches c root) (htop : l.parent? root = none) :
    l.IsRootPath c (l.lineage c).reverse where
  first := by rw [List.head?_reverse, getLast?_lineage hc htop]
  last := by rw [List.getLast?_reverse, lineage, List.head?_cons]
  parent? := by
    rw [List.isChain_reverse, lineage_eq_walk]
    exact isChain_walk l _ _
  nodup := List.nodup_reverse.2 (lineage_nodup hc htop)
  mem_iff a := List.mem_reverse.trans mem_lineage
  uncut n hn := by rw [walk_eq_ancestors hc htop hn, lineage]

end Links

namespace Hierarchy

variable {g : Hierarchy} {c : ClassIndex}

theorem WellFormed.rootPathNames_nameOf (hg : g.WellFormed) (hc : c < g.size) :
    g.rootPathNames (g.nameOf c) = (g.rootPath c).map (List.map g.nameOf) := by
  rw [rootPathNames, hg.lookup_nameOf hc]
  show (g.rootPath c >>= fun path => pure (path.map g.nameOf)) = _
  cases g.rootPath c <;> rfl

end Hierarchy

/-- The rooted classes of any program. The search that keeps its answers never leaves its tables and
flags exactly the classes that are rooted, which are those that some number of links leads from to
the root. A rooted class has a path from the root, whole and without repetition, and its names are
read off from it; for any other registered class the path fails, and the error names the class. -/
theorem root_paths_exact (entryClass : String) (ds : List ClassDeclaration) :
    let g := (Analysis.build entryClass ds).hierarchy
    g.nameOf Links.root = "Object" ∧
    (∃ flags, RootSearch.flags? g.links = some flags ∧ flags.size = g.size ∧
      ∀ c < g.size, flags[c]? = some (g.isRooted c)) ∧
    ∀ c < g.size,
      (g.isRooted c = true ↔ ∃ n, g.links.climb n c = some Links.root) ∧
      (g.isRooted c = true ↔ ∃ path, g.rootPath c = .ok path) ∧
      (g.isRooted c = false ↔ g.rootPath c = .error (.brokenChain (g.nameOf c))) ∧
      (∀ path, g.rootPath c = .ok path → g.links.IsRootPath c path) ∧
      g.rootPathNames (g.nameOf c) = (g.rootPath c).map (List.map g.nameOf) := by
  intro g
  have hg : g.WellFormed := Analysis.wellFormed_build entryClass ds
  have hlinks : ∀ c p, g.links.parent? c = some p → p < g.links.size := by
    intro c p hp
    rw [hg.size_links]
    exact hg.parent_lt hp
  refine ⟨Registry.nameOf_root _, ?_, ?_⟩
  · rw [← hg.size_links]
    exact RootSearch.exists_flags?_eq_some hg.root_top hlinks (hg.size_links.symm ▸ hg.root_lt)
  · intro c hc
    refine ⟨?_, ?_, ?_, ?_, hg.rootPathNames_nameOf hc⟩
    · rw [← Links.reaches_iff_climb]
      exact Links.isRooted_iff
    · simp [Hierarchy.rootPath_eq_ok_iff]
    · simp [Hierarchy.rootPath_eq_error_iff]
    · intro path hpath
      obtain ⟨hrooted, rfl⟩ := Hierarchy.rootPath_eq_ok_iff.1 hpath
      exact Links.isRootPath_lineage (Links.isRooted_iff.1 hrooted) hg.root_top

/-- `Leaf` and `Middle` come before their parents, and `Side` joins their way to the root. `Tail`
leads into a cycle of two. -/
def forkedProgram : List ClassDeclaration :=
  [.inheriting (.named "Leaf") "Middle", .inheriting (.named "Middle") "Top", .named "Top",
    .inheriting (.named "Side") "Middle", .inheriting (.named "Tail") "Ring",
    .inheriting (.named "Ring") "Round", .inheriting (.named "Round") "Ring"]

/-- The answer for `Leaf` serves `Side` too, and three classes lie between the root and it. `Tail`
has no path. -/
theorem root_paths_forkedProgram :
    let g := (Analysis.build "Main" forkedProgram).hierarchy
    5 < g.size ∧ 8 < g.size ∧ 9 < g.size ∧
    (∃ flags, RootSearch.flags? g.links = some flags ∧ flags[5]? = some true ∧
      flags[8]? = some true ∧ flags[9]? = some false) ∧
    g.rootPath 8 = .ok [0, 7, 6, 8] ∧ g.links.IsRootPath 8 [0, 7, 6, 8] ∧
    g.rootPathNames (g.nameOf 8) = .ok ["Object", "Top", "Middle", "Side"] ∧
    g.nameOf 9 = "Tail" ∧ g.rootPath 9 = .error (.brokenChain (g.nameOf 9)) := by
  intro g
  have h5 : 5 < g.size := by decide +kernel
  have h8 : 8 < g.size := by decide +kernel
  have h9 : 9 < g.size := by decide +kernel
  obtain ⟨_, ⟨flags, hflags, _, hright⟩, hpaths⟩ := root_paths_exact "Main" forkedProgram
  have hleaf : g.isRooted 5 = true := by decide +kernel
  have hside : g.isRooted 8 = true := by decide +kernel
  have htail : g.isRooted 9 = false := by decide +kernel
  have hpath : g.rootPath 8 = .ok [0, 7, 6, 8] := by decide +kernel
  obtain ⟨_, _, _, hexact, hnames⟩ := hpaths 8 h8
  obtain ⟨_, _, hbroken, _⟩ := hpaths 9 h9
  refine ⟨h5, h8, h9, ⟨flags, hflags, ?_, ?_, ?_⟩, hpath, hexact _ hpath, ?_, by decide +kernel,
    hbroken.1 htail⟩
  · exact (hright 5 h5).trans (congrArg some hleaf)
  · exact (hright 8 h8).trans (congrArg some hside)
  · exact (hright 9 h9).trans (congrArg some htail)
  · rw [hnames]
    decide +kernel

end CoolHierarchy
