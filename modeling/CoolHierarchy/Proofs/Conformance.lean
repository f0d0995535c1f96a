import CoolHierarchy.Proofs.Linking

/-!
# Subtyping and least common ancestors

On the hierarchy of any program, with or without errors, `Hierarchy.conforms` is the order of the
parent links with the root put on top (`conforms_iff`). The join of two classes is the least class
above both of them, or the root where one of them is sealed (`join_cases`).

* `join_least_upper_bound`: what the join has to do with subtyping, when it fails, and how it
  depends on the order of its arguments.
-/

namespace CoolHierarchy

/-- `l.LeastCommon a b j`: `j` is above `a` and `b`, and all else that is above both is above `j`. -/
structure Links.LeastCommon (l : Links) (a b j : ClassIndex) : Prop where
  left : l.Reaches a j
  right : l.Reaches b j
  least : ∀ c, l.Reaches a c → l.Reaches b c → l.Reaches j c

/-- Two classes lie on one cycle of parent links. -/
def Links.OnOneCycle (l : Links) (a b : ClassIndex) : Prop := l.Below a b ∧ l.Below b a

/-- The first class on the walk from the right that is also on the walk from the left. -/
theorem Links.leastCommon_of_find? {l : Links} {a b j : ClassIndex}
    (h : (l.lineage b).find? (l.lineage a).contains = some j) : l.LeastCommon a b j := by
  obtain ⟨hj, before, rest, hsplit, hbefore⟩ := List.find?_eq_some_iff_append.1 h
  refine ⟨mem_lineage.1 (List.contains_iff_mem.1 hj), mem_lineage.1 (List.mem_of_find?_eq_some h),
    ?_⟩
  intro c hac hbc
  have hmem : c ∈ before ++ j :: rest := hsplit ▸ mem_lineage.2 hbc
  rcases List.mem_append.1 hmem with hc | hc
  · have hnot := hbefore c hc
    rw [List.contains_iff_mem.2 (mem_lineage.2 hac)] at hnot
    cases hnot
  · exact reaches_of_lineage_eq_append hsplit hc

theorem Links.not_reaches_of_find?_eq_none {l : Links} {a b : ClassIndex}
    (h : (l.lineage b).find? (l.lineage a).contains = none) :
    ¬ ∃ c, l.Reaches a c ∧ l.Reaches b c := by
  rintro ⟨c, hac, hbc⟩
  have hnot := List.find?_eq_none.1 h c (mem_lineage.2 hbc)
  exact hnot (List.contains_iff_mem.2 (mem_lineage.2 hac))

namespace Hierarchy

variable {g : Hierarchy} {a b c j l r : ClassIndex}

/-! ## Subtyping -/

namespace WellFormed

/-- Nothing but the root is above a sealed class. -/
theorem eq_root_of_sealed_below (hg : g.WellFormed) (hc : g.isSealed c = true)
    (h : g.links.Below c a) : a = Links.root := by
  obtain ⟨p, hp, h⟩ := h
  have hroot := hg.sealed_parent hc
  rw [parent?, hp] at hroot
  cases hroot
  exact h.eq_of_top hg.root_top

/-- Nothing is below a sealed class. -/
theorem not_below_sealed (hg : g.WellFormed) (ha : g.isSealed a = true) : ¬ g.links.Below c a := by
  intro h
  obtain ⟨d, _, hda⟩ := h.exists_child
  rw [hg.parent_unsealed hda] at ha
  cases ha

/-- Subtyping follows the parent links, and everything is below the root: the sealed classes need
no rule of their own. -/
theorem conforms_iff (hg : g.WellFormed) :
    g.conforms c a = true ↔ a = Links.root ∨ g.links.Reaches c a := by
  rw [conforms]
  split
  · next h =>
    simp only [Bool.or_eq_true, beq_iff_eq] at h
    rcases h with rfl | rfl
    · exact ⟨fun _ => .inr (.refl c), fun _ => rfl⟩
    · exact ⟨fun _ => .inl rfl, fun _ => rfl⟩
  · next h =>
    simp only [Bool.or_eq_true, beq_iff_eq, not_or] at h
    obtain ⟨hne, hroot⟩ := h
    -- With the shortcuts out of the way only proper ancestors count.
    have hbelow : a = Links.root ∨ g.links.Reaches c a ↔ g.links.Below c a := by
      constructor
      · rintro (ha | h)
        · exact absurd ha hroot
        · exact h.eq_or_below.resolve_left (Ne.symm hne)
      · exact fun h => .inr h.reaches
    rw [hbelow]
    split
    · next h =>
      simp only [Bool.false_eq_true, false_iff]
      intro hca
      rcases Bool.or_eq_true_iff.1 h with hc | ha
      · exact hroot (hg.eq_root_of_sealed_below hc hca)
      · exact hg.not_below_sealed ha hca
    · rw [List.contains_iff_mem, ancestors, Links.mem_ancestors]

theorem conformsByName_nameOf (hg : g.WellFormed) (hc : c < g.size) (ha : a < g.size) :
    g.conformsByName (g.nameOf c) (g.nameOf a) = .ok (g.conforms c a) := by
  rw [conformsByName, hg.lookup_nameOf hc, hg.lookup_nameOf ha]
  rfl

theorem conforms_of_reaches (hg : g.WellFormed) (h : g.links.Reaches c a) :
    g.conforms c a = true :=
  hg.conforms_iff.2 (.inr h)

theorem conforms_root (hg : g.WellFormed) (c : ClassIndex) : g.conforms c Links.root = true :=
  hg.conforms_iff.2 (.inl rfl)

end WellFormed

/-! ## Least common ancestors -/

/-- What the join of two classes can be. -/
theorem join_cases (g : Hierarchy) (l r : ClassIndex) :
    (l = r ∧ g.join l r = .ok l) ∨
    (l ≠ r ∧ (g.isSealed l = true ∨ g.isSealed r = true) ∧ g.join l r = .ok Links.root) ∨
    (l ≠ r ∧ g.isSealed l = false ∧ g.isSealed r = false ∧
      ((∃ j, g.join l r = .ok j ∧ g.links.LeastCommon l r j) ∨
        (g.join l r = .error (.noCommonAncestor (g.nameOf l) (g.nameOf r)) ∧
          ¬ ∃ c, g.links.Reaches l c ∧ g.links.Reaches r c))) := by
  by_cases hlr : l = r
  · exact .inl ⟨hlr, by simp [join, hlr]⟩
  · refine .inr ?_
    by_cases hsealed : g.isSealed l = true ∨ g.isSealed r = true
    · exact .inl ⟨hlr, hsealed, by simp [join, hlr, hsealed]⟩
    · have hopen : g.isSealed l = false ∧ g.isSealed r = false := by simpa using hsealed
      refine .inr ⟨hlr, hopen.1, hopen.2, ?_⟩
      -- The shortcuts do not apply, so the join is what the search for a common class finds.
      have hne : ¬ (l == r) = true := by simpa using hlr
      have hno : ¬ (g.isSealed l || g.isSealed r) = true := by simpa using hopen
      cases hfind : (g.links.lineage r).find? (g.links.lineage l).contains with
      | some j =>
        exact .inl ⟨j, by rw [join, if_neg hne, if_neg hno, hfind], Links.leastCommon_of_find? hfind⟩
      | none =>
        exact .inr ⟨by rw [join, if_neg hne, if_neg hno, hfind],
          Links.not_reaches_of_find?_eq_none hfind⟩

/-- What the join of two classes is, when there is one. A class is the least class above itself. -/
theorem eq_root_or_leastCommon_of_join (h : g.join l r = .ok j) :
    (l ≠ r ∧ (g.isSealed l = true ∨ g.isSealed r = true) ∧ j = Links.root) ∨
    ((l = r ∨ (g.isSealed l = false ∧ g.isSealed r = false)) ∧ g.links.LeastCommon l r j) := by
  rcases join_cases g l r with ⟨rfl, h'⟩ | ⟨hlr, hsealed, h'⟩ | ⟨_, hl, hr, ⟨j', h', hj⟩ | ⟨h', _⟩⟩
  · rw [h] at h'
    cases h'
    exact .inr ⟨.inl rfl, .refl _, .refl _, fun _ hc _ => hc⟩
  · rw [h] at h'
    cases h'
    exact .inl ⟨hlr, hsealed, rfl⟩
  · rw [h] at h'
    cases h'
    exact .inr ⟨.inr ⟨hl, hr⟩, hj⟩
  · rw [h] at h'
    cases h'

/-- When two classes have no join. -/
theorem join_fails_iff : (∃ e, g.join l r = .error e) ↔
    l ≠ r ∧ g.isSealed l = false ∧ g.isSealed r = false ∧
      ¬ ∃ c, g.links.Reaches l c ∧ g.links.Reaches r c := by
  rcases join_cases g l r with ⟨hlr, h⟩ | ⟨_, hsealed, h⟩ | ⟨hlr, hl, hr, ⟨j, h, hj⟩ | ⟨h, hnone⟩⟩
  · simp only [h, reduceCtorEq, exists_false, false_iff]
    exact fun hfails => hfails.1 hlr
  · rcases hsealed with hl | hr
    · simp [h, hl]
    · simp [h, hr]
  · simp only [h, reduceCtorEq, exists_false, false_iff]
    rintro ⟨_, _, _, hnone⟩
    exact hnone ⟨j, hj.left, hj.right⟩
  · simp only [h, Except.error.injEq, exists_eq', true_iff]
    exact ⟨hlr, hl, hr, hnone⟩

theorem join_fails_comm : (∃ e, g.join l r = .error e) ↔ ∃ e, g.join r l = .error e := by
  rw [join_fails_iff, join_fails_iff]
  constructor
  · rintro ⟨hlr, hl, hr, hnone⟩
    exact ⟨Ne.symm hlr, hr, hl, fun ⟨c, h, h'⟩ => hnone ⟨c, h', h⟩⟩
  · rintro ⟨hlr, hr, hl, hnone⟩
    exact ⟨Ne.symm hlr, hl, hr, fun ⟨c, h, h'⟩ => hnone ⟨c, h', h⟩⟩

theorem eq_noCommonAncestor_of_join {e : QueryError} (h : g.join l r = .error e) :
    e = .noCommonAncestor (g.nameOf l) (g.nameOf r) := by
  rcases join_cases g l r with ⟨_, h'⟩ | ⟨_, _, h'⟩ | ⟨_, _, _, ⟨_, h', _⟩ | ⟨h', _⟩⟩
  all_goals
    rw [h] at h'
    cases h'
  rfl

/-- Two rooted classes have the root in common. -/
theorem exists_join_of_rooted (hl : g.isRooted l = true) (hr : g.isRooted r = true) :
    ∃ j, g.join l r = .ok j := by
  cases h : g.join l r with
  | ok j => exact ⟨j, rfl⟩
  | error e =>
    obtain ⟨_, _, _, hnone⟩ := join_fails_iff.1 ⟨e, h⟩
    exact absurd ⟨Links.root, Links.isRooted_iff.1 hl, Links.isRooted_iff.1 hr⟩ hnone

/-- Turning the arguments around can change the join only on a cycle. -/
theorem join_comm_or_onOneCycle {j' : ClassIndex} (h : g.join l r = .ok j)
    (h' : g.join r l = .ok j') : j = j' ∨ g.links.OnOneCycle j j' := by
  rcases eq_root_or_leastCommon_of_join h with ⟨hlr, hsealed, rfl⟩ | ⟨hopen, hj⟩
  · rcases eq_root_or_leastCommon_of_join h' with ⟨_, _, rfl⟩ | ⟨heq | ⟨hr, hl⟩, _⟩
    · exact .inl rfl
    · exact absurd heq.symm hlr
    · rw [hl, hr] at hsealed
      rcases hsealed with hsealed | hsealed <;> cases hsealed
  · rcases eq_root_or_leastCommon_of_join h' with ⟨hrl, hsealed, rfl⟩ | ⟨_, hj'⟩
    · rcases hopen with heq | ⟨hl, hr⟩
      · exact absurd heq.symm hrl
      · rw [hl, hr] at hsealed
        rcases hsealed with hsealed | hsealed <;> cases hsealed
    · -- Both are least, so each is above the other: they are equal or go round a cycle.
      rcases (hj.least j' hj'.right hj'.left).eq_or_below with heq | hbelow
      · exact .inl heq.symm
      · rcases (hj'.least j hj.right hj.left).eq_or_below with heq | hbelow'
        · exact .inl heq
        · exact .inr ⟨hbelow, hbelow'⟩

namespace WellFormed

/-- A sealed class has nothing in common with another class but the root. -/
theorem eq_root_of_sealed (hg : g.WellFormed) (hl : g.isSealed l = true) (hlr : l ≠ r)
    (hlc : g.links.Reaches l c) (hrc : g.links.Reaches r c) : c = Links.root := by
  rcases hlc.eq_or_below with rfl | hbelow
  · rcases hrc.eq_or_below with heq | hbelow
    · exact absurd heq hlr
    · exact absurd hbelow (hg.not_below_sealed hl)
  · exact hg.eq_root_of_sealed_below hl hbelow

theorem join_upper (hg : g.WellFormed) (h : g.join l r = .ok j) :
    g.conforms l j = true ∧ g.conforms r j = true := by
  rcases eq_root_or_leastCommon_of_join h with ⟨_, _, rfl⟩ | ⟨_, hj⟩
  · exact ⟨hg.conforms_root l, hg.conforms_root r⟩
  · exact ⟨hg.conforms_of_reaches hj.left, hg.conforms_of_reaches hj.right⟩

theorem join_least (hg : g.WellFormed) (h : g.join l r = .ok j) (hl : g.conforms l c = true)
    (hr : g.conforms r c = true) : g.conforms j c = true := by
  rw [hg.conforms_iff] at hl hr ⊢
  rcases hl with hroot | hl
  · exact .inl hroot
  rcases hr with hroot | hr
  · exact .inl hroot
  rcases eq_root_or_leastCommon_of_join h with ⟨hlr, hsealed | hsealed, _⟩ | ⟨_, hj⟩
  · exact .inl (hg.eq_root_of_sealed hsealed hlr hl hr)
  · exact .inl (hg.eq_root_of_sealed hsealed (Ne.symm hlr) hr hl)
  · exact .inr (hj.least c hl hr)

theorem join_lt_size (hg : g.WellFormed) (hl : l < g.size) (h : g.join l r = .ok j) :
    j < g.size := by
  rcases eq_root_or_leastCommon_of_join h with ⟨_, _, rfl⟩ | ⟨_, hj⟩
  · exact hg.root_lt
  · exact hg.lt_size_of_reaches hl hj.left

end WellFormed

end Hierarchy

/-- On the hierarchy of any program the join of two classes is their least upper bound for
subtyping. It fails, and then names the two classes, when they are different, not sealed, and have
no class above them in common, so one of them is not rooted. The order of the arguments plays no
part in whether there is a join, and in what it is only on a cycle. -/
theorem join_least_upper_bound (entryClass : String) (ds : List ClassDeclaration) :
    let g := (Analysis.build entryClass ds).hierarchy
    ∀ l < g.size, ∀ r < g.size,
    (∀ j, g.join l r = .ok j →
      j < g.size ∧ g.conforms l j = true ∧ g.conforms r j = true ∧
      ∀ c < g.size, g.conforms l c = true → g.conforms r c = true → g.conforms j c = true) ∧
    ((∃ e, g.join l r = .error e) ↔
      l ≠ r ∧ g.isSealed l = false ∧ g.isSealed r = false ∧
        ¬ ∃ c, g.links.Reaches l c ∧ g.links.Reaches r c) ∧
    (∀ e, g.join l r = .error e →
      e = .noCommonAncestor (g.nameOf l) (g.nameOf r) ∧
        (g.isRooted l = false ∨ g.isRooted r = false)) ∧
    ((∃ e, g.join l r = .error e) ↔ ∃ e, g.join r l = .error e) ∧
    (∀ j j', g.join l r = .ok j → g.join r l = .ok j' → j = j' ∨ g.links.OnOneCycle j j') := by
  intro g l hl r _
  have hg : g.WellFormed := Analysis.wellFormed_build entryClass ds
  refine ⟨?_, Hierarchy.join_fails_iff, ?_, Hierarchy.join_fails_comm,
    fun j j' => Hierarchy.join_comm_or_onOneCycle⟩
  · intro j hj
    obtain ⟨hlj, hrj⟩ := hg.join_upper hj
    exact ⟨hg.join_lt_size hl hj, hlj, hrj, fun c _ => hg.join_least hj⟩
  · intro e he
    refine ⟨Hierarchy.eq_noCommonAncestor_of_join he, ?_⟩
    by_contra hrooted
    simp only [not_or, Bool.not_eq_false] at hrooted
    obtain ⟨j, hj⟩ := Hierarchy.exists_join_of_rooted hrooted.1 hrooted.2
    rw [hj] at he
    cases he

/-- `A` and `B` descend from each other, `C` from the one and `D` from the other. `E` descends from
a class that does not exist. -/
def crossedProgram : List ClassDeclaration :=
  [.inheriting (.named "A") "B", .inheriting (.named "B") "A", .inheriting (.named "C") "A",
    .inheriting (.named "D") "B", .inheriting (.named "E") "Missing"]

/-- `C` and `D` have a join either way, `B` and `A` in turn, while `C` and `E` have none. -/
theorem join_crossedProgram :
    let g := (Analysis.build "Main" crossedProgram).hierarchy
    7 < g.size ∧ 8 < g.size ∧ 9 < g.size ∧ g.join 7 8 = .ok 6 ∧ g.join 8 7 = .ok 5 ∧
    g.conforms 7 6 = true ∧ g.conforms 8 6 = true ∧ g.conforms 6 5 = true ∧
    g.links.OnOneCycle 6 5 ∧ g.join 7 9 = .error (.noCommonAncestor "C" "E") ∧
    (g.isRooted 7 = false ∨ g.isRooted 9 = false) := by
  intro g
  have h7 : 7 < g.size := by decide +kernel
  have h8 : 8 < g.size := by decide +kernel
  have h9 : 9 < g.size := by decide +kernel
  have hcd : g.join 7 8 = .ok 6 := by decide +kernel
  have hdc : g.join 8 7 = .ok 5 := by decide +kernel
  have hce : g.join 7 9 = .error (.noCommonAncestor "C" "E") := by decide +kernel
  obtain ⟨hupper, _, _, _, hcomm⟩ := join_least_upper_bound "Main" crossedProgram 7 h7 8 h8
  obtain ⟨_, _, hfails, _⟩ := join_least_upper_bound "Main" crossedProgram 7 h7 9 h9
  obtain ⟨_, hc, hd, hleast⟩ := hupper 6 hcd
  have hca : g.conforms 7 5 = true := by decide +kernel
  have hda : g.conforms 8 5 = true := by decide +kernel
  have hba : g.conforms 6 5 = true := hleast 5 (by decide +kernel) hca hda
  have hcycle : g.links.OnOneCycle 6 5 := (hcomm 6 5 hcd hdc).resolve_left (by decide)
  exact ⟨h7, h8, h9, hcd, hdc, hc, hd, hba, hcycle, hce, (hfails _ hce).2⟩

end CoolHierarchy
