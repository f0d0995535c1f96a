import CoolHierarchy.Proofs.BrokenChains
import CoolHierarchy.Proofs.ErrorList

/-!
# Subtyping as an order

On the hierarchy of any program subtyping is reflexive and transitive and has the root on top. Two
classes are subtypes of each other only on a cycle (`conforms_both_iff`), and every cycle is
reported.

* `conforms_preorder`: the laws of subtyping, and the errors that tell where it is no partial order.
-/

namespace CoolHierarchy

namespace Hierarchy.WellFormed

variable {g : Hierarchy} {a b c : ClassIndex}

theorem conforms_refl (hg : g.WellFormed) (c : ClassIndex) : g.conforms c c = true :=
  hg.conforms_of_reaches (.refl c)

/-- The root conforms to nothing but itself. -/
theorem eq_root_of_root_conforms (hg : g.WellFormed) (h : g.conforms Links.root a = true) :
    a = Links.root := by
  rcases hg.conforms_iff.1 h with rfl | h
  · rfl
  · exact h.eq_of_top hg.root_top

theorem conforms_trans (hg : g.WellFormed) (hab : g.conforms a b = true)
    (hbc : g.conforms b c = true) : g.conforms a c = true := by
  rcases hg.conforms_iff.1 hab with rfl | hab
  · rw [hg.eq_root_of_root_conforms hbc]
    exact hg.conforms_root a
  · rcases hg.conforms_iff.1 hbc with rfl | hbc
    · exact hg.conforms_root a
    · exact hg.conforms_of_reaches (hab.trans hbc)

/-- Different classes that conform to each other lie on one cycle. The root does not, although
everything conforms to it. -/
theorem conforms_both_iff (hg : g.WellFormed) (hne : a ≠ b) :
    g.conforms a b = true ∧ g.conforms b a = true ↔ g.links.OnOneCycle a b := by
  constructor
  · rintro ⟨hab, hba⟩
    rcases hg.conforms_iff.1 hab with rfl | hab
    · exact absurd (hg.eq_root_of_root_conforms hba) hne
    · rcases hg.conforms_iff.1 hba with rfl | hba
      · exact absurd (hab.eq_of_top hg.root_top).symm hne
      · exact ⟨hab.eq_or_below.resolve_left (Ne.symm hne), hba.eq_or_below.resolve_left hne⟩
  · rintro ⟨hab, hba⟩
    exact ⟨hg.conforms_of_reaches hab.reaches, hg.conforms_of_reaches hba.reaches⟩

end Hierarchy.WellFormed

namespace Registry

variable {r : Registry} {a b : ClassIndex}

/-- Two classes lie on one cycle when one error names both. -/
theorem WellFormed.onOneCycle_iff (hr : r.WellFormed) (ha : a < r.hierarchy.size)
    (hb : b < r.hierarchy.size) :
    r.hierarchy.links.OnOneCycle a b ↔
      ∃ e ∈ r.analyze.errors, ∃ path, e.fault = .inheritanceCycle path ∧
        r.hierarchy.nameOf a ∈ path ∧ r.hierarchy.nameOf b ∈ path := by
  rw [Links.OnOneCycle, (Links.areCycles_cycles _).onOneCycle_iff]
  constructor
  · rintro ⟨cycle, hcycle, hain, hbin⟩
    obtain ⟨e, he, hfault⟩ := hr.exists_cycleError_iff.2 ⟨cycle, hcycle, rfl⟩
    exact ⟨e, he, _, hfault, List.mem_map_of_mem hain, List.mem_map_of_mem hbin⟩
  · rintro ⟨e, he, path, hfault, hain, hbin⟩
    obtain ⟨cycle, hcycle, rfl⟩ := hr.exists_cycleError_iff.1 ⟨e, he, hfault⟩
    -- Names are unique, so the classes that are named are `a` and `b`.
    have hmem : ∀ c < r.hierarchy.size,
        r.hierarchy.nameOf c ∈ cycle.map r.hierarchy.nameOf → c ∈ cycle := by
      intro c hc hname
      obtain ⟨c', hc', hname⟩ := List.mem_map.1 hname
      rwa [← hr.hierarchy.nameOf_inj (hr.lt_size_of_mem_cycles hcycle hc') hc hname]
    exact ⟨cycle, hcycle, hmem a ha hain, hmem b hb hbin⟩

end Registry

/-- Subtyping on the hierarchy of any program is a preorder with the root, and nothing but the root,
on top. Where it is no partial order an error tells: different classes conform to each other exactly
when both are in the path of one reported cycle. -/
theorem conforms_preorder (entryClass : String) (ds : List ClassDeclaration) :
    let a := Analysis.build entryClass ds
    let g := a.hierarchy
    (∀ c, g.conforms c c = true) ∧
    (∀ x y z, g.conforms x y = true → g.conforms y z = true → g.conforms x z = true) ∧
    g.nameOf Links.root = "Object" ∧
    (∀ c, g.conforms c Links.root = true) ∧
    (∀ c, g.conforms Links.root c = true → c = Links.root) ∧
    (∀ x < g.size, ∀ y < g.size, x ≠ y →
      (g.conforms x y = true ∧ g.conforms y x = true ↔
        ∃ e ∈ a.errors, ∃ path, e.fault = .inheritanceCycle path ∧
          g.nameOf x ∈ path ∧ g.nameOf y ∈ path)) := by
  intro a g
  have hr : (Registry.addAll { entryClass } ds).WellFormed :=
    Analysis.wellFormed_registry entryClass ds
  have hg : g.WellFormed := hr.hierarchy
  refine ⟨hg.conforms_refl, fun _ _ _ => hg.conforms_trans, Registry.nameOf_root _,
    hg.conforms_root, fun _ => hg.eq_root_of_root_conforms, ?_⟩
  intro x hx y hy hne
  rw [hg.conforms_both_iff hne]
  exact hr.onOneCycle_iff hx hy

/-- Three classes descend from each other, and one more from them. -/
def ringProgram : List ClassDeclaration :=
  [.inheriting (.named "Tail") "A", .inheriting (.named "A") "B", .inheriting (.named "B") "C",
    .inheriting (.named "C") "A"]

/-- `Tail` conforms to `C` by way of `A`. `A` and `C` conform to each other, and the error about the
cycle names both, while `A` does not conform to `Tail`. -/
theorem conforms_ringProgram :
    let a := Analysis.build "Main" ringProgram
    let g := a.hierarchy
    g.nameOf 5 = "Tail" ∧ g.nameOf 6 = "A" ∧ g.nameOf 8 = "C" ∧
    g.conforms 5 8 = true ∧ g.conforms 6 5 = false ∧
    (∃ e ∈ a.errors, ∃ path, e.fault = .inheritanceCycle path ∧
      g.nameOf 6 ∈ path ∧ g.nameOf 8 ∈ path) ∧
    g.conforms 8 6 = true := by
  intro a g
  obtain ⟨_, htrans, _, _, _, hcycle⟩ := conforms_preorder "Main" ringProgram
  have htail : g.conforms 5 6 = true := by decide +kernel
  have hac : g.conforms 6 8 = true := by decide +kernel
  have hca : g.conforms 8 6 = true := by decide +kernel
  have hreported := (hcycle 6 (by decide +kernel) 8 (by decide +kernel) (by decide)).1 ⟨hac, hca⟩
  exact ⟨by decide +kernel, by decide +kernel, by decide +kernel, htrans 5 6 8 htail hac,
    by decide +kernel, hreported, hca⟩

end CoolHierarchy
