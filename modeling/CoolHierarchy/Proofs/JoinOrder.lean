import CoolHierarchy.Proofs.RootedJoin

/-!
# The order that joins give

A join tells which of two classes is above the other: `b` is above `a` when their join is `b`. That
is the order of the parent links (`join_eq_right_iff_reaches`), so it differs from subtyping in one
thing only. Every class conforms to the root, and a class that is not rooted has no join with it.

* `join_eq_right_iff`: where joins and subtyping agree, and what they answer where they do not.
-/

namespace CoolHierarchy

/-- A class that is on the walk from another one is the first class that the two walks share, also
where it is on a cycle and the walk from it comes back. -/
theorem Links.find?_lineage_of_reaches {l : Links} {a b : ClassIndex} (h : l.Reaches a b) :
    (l.lineage b).find? (l.lineage a).contains = some b :=
  List.find?_cons_of_pos (List.contains_iff_mem.2 (mem_lineage.2 h))

namespace Hierarchy

variable {g : Hierarchy} {a b : ClassIndex}

/-- Without its shortcuts the join looks for the first marked class. -/
theorem WellFormed.join_eq_joinMarked_of_open (hg : g.WellFormed) (ha : a < g.size) (hab : a ≠ b)
    (hopen : g.isSealed a = false ∧ g.isSealed b = false) : g.join a b = g.joinMarked a b := by
  have hne : ¬ (a == b) = true := by simpa using hab
  have hno : ¬ (g.isSealed a || g.isSealed b) = true := by simpa using hopen
  cases hfind : (g.links.lineage b).find? (g.links.lineage a).contains with
  | none => rw [hg.joinMarked_eq ha, join, if_neg hne, if_neg hno, hfind]
  | some c => rw [hg.joinMarked_eq ha, join, if_neg hne, if_neg hno, hfind]

theorem WellFormed.root_unsealed (hg : g.WellFormed) : g.isSealed Links.root = false := by
  rw [← Bool.not_eq_true]
  intro hsealed
  have hparent := hg.sealed_parent hsealed
  rw [hg.root_top] at hparent
  cases hparent

/-- The join of two classes is the right one when the links lead there from the left one. -/
theorem WellFormed.join_eq_right_iff_reaches (hg : g.WellFormed) :
    g.join a b = .ok b ↔ g.links.Reaches a b := by
  constructor
  · intro h
    rcases eq_root_or_leastCommon_of_join h with ⟨_, hsealed | hsealed, rfl⟩ | ⟨_, hleast⟩
    · exact .of_parent? (hg.sealed_parent hsealed)
    · rw [hg.root_unsealed] at hsealed
      cases hsealed
    · exact hleast.left
  · intro h
    rcases join_cases g a b with ⟨rfl, hjoin⟩ | ⟨hab, hsealed, hjoin⟩ | ⟨hab, ha, hb, _⟩
    · exact hjoin
    · -- Of two classes one below the other only the lower one can be sealed, and then the upper one
      -- is the root.
      have hbelow : g.links.Below a b := h.eq_or_below.resolve_left (Ne.symm hab)
      have ha : g.isSealed a = true := hsealed.resolve_right fun hb => hg.not_below_sealed hb hbelow
      rw [hjoin, hg.eq_root_of_sealed_below ha hbelow]
    · have hne : ¬ (a == b) = true := by simpa using hab
      have hno : ¬ (g.isSealed a || g.isSealed b) = true := by simp [ha, hb]
      rw [join, if_neg hne, if_neg hno, Links.find?_lineage_of_reaches h]

/-- Joins and subtyping agree but for the root, which has no join with a class that is not
rooted. -/
theorem WellFormed.join_eq_right_iff_conforms (hg : g.WellFormed) :
    g.join a b = .ok b ↔ g.conforms a b = true ∧ (b = Links.root → g.isRooted a = true) := by
  rw [hg.join_eq_right_iff_reaches, hg.conforms_iff, isRooted, Links.isRooted_iff]
  constructor
  · intro h
    exact ⟨.inr h, fun hb => hb ▸ h⟩
  · rintro ⟨hb | h, hroot⟩
    · exact hb.symm ▸ hroot hb
    · exact h

theorem WellFormed.not_sealed_of_unrooted (hg : g.WellFormed) (ha : g.isRooted a = false) :
    g.isSealed a = false := by
  rw [← Bool.not_eq_true] at ha ⊢
  exact fun hsealed => ha (Links.isRooted_iff.2 (.of_parent? (hg.sealed_parent hsealed)))

/-- A class that is not rooted has no class in common with the root. -/
theorem WellFormed.join_root_of_unrooted (hg : g.WellFormed) (ha : g.isRooted a = false) :
    g.join a Links.root = .error (.noCommonAncestor (g.nameOf a) (g.nameOf Links.root)) := by
  have hbroken : ¬ g.links.Reaches a Links.root := by
    rwa [← Links.isRooted_iff, Bool.not_eq_true]
  have hfails : ∃ e, g.join a Links.root = .error e := by
    refine join_fails_iff.2 ⟨?_, hg.not_sealed_of_unrooted ha, hg.root_unsealed, ?_⟩
    · rintro rfl
      exact hbroken (.refl _)
    · rintro ⟨c, hac, hroot⟩
      exact hbroken (hroot.eq_of_top hg.root_top ▸ hac)
  obtain ⟨e, he⟩ := hfails
  rw [he, eq_noCommonAncestor_of_join he]

end Hierarchy

/-- The two type queries on the hierarchy of any program. The join of two classes is the right one
exactly when the left one conforms to it, but for one exception: every class conforms to the root,
and the root has no join with a class that is not rooted. The join without its shortcuts, which
looks for the first class marked on the walk from the left, stands for the join of any two classes
that are different and not sealed. -/
theorem join_eq_right_iff (entryClass : String) (ds : List ClassDeclaration) :
    let g := (Analysis.build entryClass ds).hierarchy
    ∀ a < g.size, ∀ b < g.size,
      (g.join a b = .ok b ↔
        g.conforms a b = true ∧ (b = Links.root → g.isRooted a = true)) ∧
      ((g.join a b = .ok b ↔ g.conforms a b = true) ↔
        ¬ (b = Links.root ∧ g.isRooted a = false)) ∧
      (b = Links.root → g.isRooted a = false → g.conforms a b = true ∧
        g.join a b = .error (.noCommonAncestor (g.nameOf a) (g.nameOf b))) ∧
      (a ≠ b → g.isSealed a = false ∧ g.isSealed b = false → g.join a b = g.joinMarked a b) := by
  intro g a ha b _
  have hg : g.WellFormed := Analysis.wellFormed_build entryClass ds
  refine ⟨hg.join_eq_right_iff_conforms, ?_, ?_, hg.join_eq_joinMarked_of_open ha⟩
  · rw [hg.join_eq_right_iff_conforms, ← Bool.not_eq_true]
    constructor
    · rintro hagree ⟨rfl, hbroken⟩
      exact hbroken ((hagree.2 (hg.conforms_root a)).2 rfl)
    · intro hother
      refine ⟨And.left, fun hconforms => ⟨hconforms, fun hb => ?_⟩⟩
      exact Decidable.not_not.1 fun hbroken => hother ⟨hb, hbroken⟩
  · rintro rfl hbroken
    exact ⟨hg.conforms_root a, hg.join_root_of_unrooted hbroken⟩

/-- `C` leads into the cycle of `A` and `B`, so it joins with `B` to `B`, and `A` and `B` with each
other to either. `E` is not rooted, and has no join with the root that it conforms to. -/
theorem join_eq_right_crossedProgram :
    let g := (Analysis.build "Main" crossedProgram).hierarchy
    5 < g.size ∧ 6 < g.size ∧ 7 < g.size ∧ 9 < g.size ∧ g.isRooted 9 = false ∧
    g.join 7 6 = .ok 6 ∧ g.conforms 7 6 = true ∧ g.joinMarked 7 6 = .ok 6 ∧
    g.join 5 6 = .ok 6 ∧ g.join 6 5 = .ok 5 ∧
    g.conforms 9 Links.root = true ∧
    g.join 9 Links.root = .error (.noCommonAncestor (g.nameOf 9) (g.nameOf Links.root)) := by
  intro g
  have h5 : 5 < g.size := by decide +kernel
  have h6 : 6 < g.size := by decide +kernel
  have h7 : 7 < g.size := by decide +kernel
  have h9 : 9 < g.size := by decide +kernel
  have hroot : Links.root < g.size := by decide +kernel
  have hbroken : g.isRooted 9 = false := by decide +kernel
  have hcb : g.conforms 7 6 = true := by decide +kernel
  have hab : g.conforms 5 6 = true := by decide +kernel
  have hba : g.conforms 6 5 = true := by decide +kernel
  have hagree := join_eq_right_iff "Main" crossedProgram
  obtain ⟨hjoin, _, _, hmarked⟩ := hagree 7 h7 6 h6
  have hjoin' : g.join 7 6 = .ok 6 := hjoin.2 ⟨hcb, by decide⟩
  obtain ⟨_, _, hexception, _⟩ := hagree 9 h9 Links.root hroot
  obtain ⟨hconforms, hfails⟩ := hexception rfl hbroken
  refine ⟨h5, h6, h7, h9, hbroken, hjoin', hcb, ?_, (hagree 5 h5 6 h6).1.2 ⟨hab, by decide⟩,
    (hagree 6 h6 5 h5).1.2 ⟨hba, by decide⟩, hconforms, hfails⟩
  rw [← hmarked (by decide) (by decide +kernel), hjoin']

end CoolHierarchy
