import CoolHierarchy.Proofs.Conformance
import CoolHierarchy.Proofs.Cycle
import CoolHierarchy.Proofs.LayoutTable

/-!
# Errors and broken chains

A class is severed by an error that tells why it has no parent, or that it is on a cycle. The
errors sever just enough classes to explain every class that does not descend from the root.

* `WellFormed.severed_linkErrors`: errors about parents sever the classes without one, but for the
  root.
* `WellFormed.severed_cycleErrors`: errors about cycles sever the classes that the search for
  cycles lists.
* `not_isRooted_iff_severed`: a class is unrooted exactly when a severed class is above it or the
  class itself is severed, and where nothing is severed every question has an answer.
-/

namespace CoolHierarchy

/-! ## What the passes of an analysis sever -/

namespace Registry

variable {r : Registry} {c : ClassIndex} {name : String} {e : HierarchyError}

theorem mem_linkErrors : e ∈ r.linkErrors ↔
    ∃ (c : ClassIndex) (d : ClassDeclaration), r.classes[c]? = some d ∧
      r.resolveParent d = .error e.fault ∧ e.span = d.span := by
  simp only [linkErrors, List.mem_filterMap, Array.mem_toList_iff]
  constructor
  · rintro ⟨d, hd, he⟩
    obtain ⟨c, hc⟩ := Array.mem_iff_getElem?.1 hd
    refine ⟨c, d, hc, ?_⟩
    rw [linkError?] at he
    split at he
    · cases he
    · next hfault =>
      cases he
      exact ⟨hfault, rfl⟩
  · rintro ⟨c, d, hc, hfault, hspan⟩
    refine ⟨d, Array.mem_of_getElem? hc, ?_⟩
    rw [linkError?, hfault, ← hspan]

/-- A class is severed by an error about its parent when it has no parent and is not the root. -/
theorem WellFormed.severed_linkErrors (hr : r.WellFormed) (hc : c < r.hierarchy.size) :
    (∃ e ∈ r.linkErrors, r.hierarchy.nameOf c ∈ e.fault.severed) ↔
      c ≠ Links.root ∧ r.hierarchy.parent? c = none := by
  constructor
  · rintro ⟨e, he, hname⟩
    obtain ⟨c', d, hc', hfault, _⟩ := mem_linkErrors.1 he
    rcases hr.resolveParent_cases hc' with ⟨_, hok⟩ | ⟨_, p, q, hok, _⟩ | ⟨hne, fault, herr, hsev⟩
    · rw [hok] at hfault
      cases hfault
    · rw [hok] at hfault
      cases hfault
    · -- The error names the class whose parent was looked up, so that class is `c`.
      rw [herr] at hfault
      cases hfault
      rw [hsev, List.mem_singleton] at hname
      have hd : r.hierarchy.nameOf c' = d.name.name := Hierarchy.nameOf_of_declaration? hc'
      have hlt : c' < r.hierarchy.size := Hierarchy.lt_size_of_declaration? hc'
      obtain rfl : c = c' := hr.hierarchy.nameOf_inj hc hlt (hname.trans hd.symm)
      refine ⟨hne, ?_⟩
      rw [parent?_hierarchy_of_getElem? hc', link?, herr]
  · rintro ⟨hne, htop⟩
    obtain ⟨d, hd⟩ := Hierarchy.exists_declaration hc
    rcases hr.resolveParent_cases hd with ⟨hroot, _⟩ | ⟨_, p, q, hok, _⟩ | ⟨_, fault, herr, hsev⟩
    · exact absurd hroot hne
    · rw [parent?_of_resolveParent hd hok] at htop
      cases htop
    · refine ⟨{ fault, span := d.span }, mem_linkErrors.2 ⟨c, d, hd, herr, rfl⟩, ?_⟩
      rw [hsev, Hierarchy.nameOf_of_declaration? hd]
      exact List.mem_singleton_self _

/-- Cycles are made of registered classes. -/
theorem WellFormed.lt_size_of_mem_cycles (hr : r.WellFormed) {cycle : List ClassIndex}
    (hcycle : cycle ∈ r.hierarchy.links.cycles) (hc : c ∈ cycle) : c < r.hierarchy.size :=
  hr.hierarchy.lt_size_of_below (Links.onCycle_of_mem_cycles hcycle hc)

/-- A class is severed by an error about a cycle when the cycle that was found has it. -/
theorem WellFormed.severed_cycleErrors (hr : r.WellFormed) (hc : c < r.hierarchy.size) :
    (∃ e ∈ r.cycleErrors, r.hierarchy.nameOf c ∈ e.fault.severed) ↔
      ∃ cycle ∈ r.hierarchy.links.cycles, c ∈ cycle := by
  simp only [cycleErrors, List.mem_map, exists_exists_and_eq_and]
  constructor
  · rintro ⟨cycle, hcycle, hname⟩
    obtain ⟨c', hc', hname⟩ := List.mem_map.1 hname
    have hlt := hr.lt_size_of_mem_cycles hcycle hc'
    exact ⟨cycle, hcycle, hr.hierarchy.nameOf_inj hlt hc hname ▸ hc'⟩
  · rintro ⟨cycle, hcycle, hmem⟩
    exact ⟨cycle, hcycle, List.mem_map_of_mem hmem⟩

theorem WellFormed.severed_errors (hr : r.WellFormed) (he : e ∈ r.errors) :
    e.fault.severed = [] := by
  obtain ⟨name, h | h⟩ := hr.errors_refusals e he
  · rw [h]
    rfl
  · rw [h]
    rfl

theorem severed_entryErrors (he : e ∈ r.entryErrors) : e.fault.severed = [] := by
  rw [entryErrors] at he
  split at he
  · cases he
  · obtain rfl := List.mem_singleton.1 he
    rfl

/-- The classes that the errors of an analysis sever: those without a parent, but for the root, and
those on a cycle that was found. -/
theorem WellFormed.severed_analyze (hr : r.WellFormed) (hc : c < r.hierarchy.size) :
    (∃ e ∈ r.analyze.errors, r.hierarchy.nameOf c ∈ e.fault.severed) ↔
      (c ≠ Links.root ∧ r.hierarchy.parent? c = none) ∨
        ∃ cycle ∈ r.hierarchy.links.cycles, c ∈ cycle := by
  rw [← hr.severed_linkErrors hc, ← hr.severed_cycleErrors hc]
  simp only [analyze, List.mem_append]
  constructor
  · rintro ⟨e, ((he | he) | he) | he, hname⟩
    · rw [hr.severed_errors (Array.mem_toList_iff.1 he)] at hname
      cases hname
    · exact .inl ⟨e, he, hname⟩
    · exact .inr ⟨e, he, hname⟩
    · rw [severed_entryErrors he] at hname
      cases hname
  · rintro (⟨e, he, hname⟩ | ⟨e, he, hname⟩)
    · exact ⟨e, .inl (.inl (.inr he)), hname⟩
    · exact ⟨e, .inl (.inr he), hname⟩

end Registry

/-! ## Chains that do not come to the root -/

/-- A chain is broken by what ends it below the root, or by a cycle that the search found. -/
theorem Hierarchy.WellFormed.not_isRooted_iff {g : Hierarchy} (hg : g.WellFormed) {c : ClassIndex}
    (hc : c < g.size) : g.isRooted c = false ↔
      ∃ y, g.links.Reaches c y ∧
        ((y ≠ Links.root ∧ g.parent? y = none) ∨ ∃ cycle ∈ g.links.cycles, y ∈ cycle) := by
  rw [← Bool.not_eq_true, Hierarchy.isRooted, Links.isRooted_iff]
  constructor
  · intro hbroken
    rcases Links.exists_top_or_cycle (hg.size_links.symm ▸ hc) with ⟨t, ht, htop⟩ | ⟨y, hy, hcycle⟩
    · refine ⟨t, ht, .inl ⟨?_, htop⟩⟩
      rintro rfl
      exact hbroken ht
    · exact ⟨y, hy, .inr hcycle⟩
  · rintro ⟨y, hy, hsev⟩ hroot
    -- Both `y` and the root are above `c`, and the root ends the walk, so `y` is below the root.
    have hyroot : g.links.Reaches y Links.root := hy.reaches_top hroot hg.root_top
    rcases hsev with ⟨hne, htop⟩ | ⟨cycle, hcycle, hmem⟩
    · exact hne (hyroot.eq_of_top htop).symm
    · exact (Links.onCycle_of_mem_cycles hcycle hmem).not_reaches_top hg.root_top hyroot

/-- The errors of any program explain its broken chains. A registered class is unrooted exactly
when the walk from it meets a class that an error severs: one whose parent is sealed or not
declared, or one on a reported cycle. So where the errors sever nothing, every class is rooted,
every two classes have a join, and every class has a layout. -/
theorem not_isRooted_iff_severed (entryClass : String) (ds : List ClassDeclaration) :
    let a := Analysis.build entryClass ds
    let g := a.hierarchy
    (∀ c < g.size, g.isRooted c = false ↔
      ∃ y, g.links.Reaches c y ∧ ∃ e ∈ a.errors, g.nameOf y ∈ e.fault.severed) ∧
    ((∀ e ∈ a.errors, e.fault.severed = []) →
      (∀ c < g.size, g.isRooted c = true) ∧
      (∀ l < g.size, ∀ r < g.size, ∃ j, g.join l r = .ok j) ∧
      ∀ c < g.size, ∃ layout, (LayoutTable.build g).get? c = some layout) := by
  intro a g
  have hr : (Registry.addAll { entryClass } ds).WellFormed :=
    Analysis.wellFormed_registry entryClass ds
  have hg : g.WellFormed := hr.hierarchy
  have hexplained : ∀ c < g.size, g.isRooted c = false ↔
      ∃ y, g.links.Reaches c y ∧ ∃ e ∈ a.errors, g.nameOf y ∈ e.fault.severed := by
    intro c hc
    rw [hg.not_isRooted_iff hc]
    refine exists_congr fun y => and_congr_right fun hy => ?_
    exact (hr.severed_analyze (hg.lt_size_of_reaches hc hy)).symm
  refine ⟨hexplained, fun hnone => ?_⟩
  have hrooted : ∀ c < g.size, g.isRooted c = true := by
    intro c hc
    rw [← Bool.not_eq_false, hexplained c hc]
    rintro ⟨y, _, e, he, hname⟩
    rw [hnone e he] at hname
    cases hname
  refine ⟨hrooted, ?_, ?_⟩
  · intro left hleft right hright
    exact Hierarchy.exists_join_of_rooted (hrooted left hleft) (hrooted right hright)
  · intro c hc
    exact ⟨Layout.ofClass g c, by rw [LayoutTable.get?_build hg, if_pos (hrooted c hc)]⟩

/-- `Tail` leads into a cycle, `Under` hangs below a class whose parent does not exist, and nothing
is wrong with `Free`. -/
def brokenProgram : List ClassDeclaration :=
  [.inheriting (.named "Tail") "Ring", .inheriting (.named "Ring") "Round",
    .inheriting (.named "Round") "Ring", .inheriting (.named "Under") "Orphan",
    .inheriting (.named "Orphan") "Missing", .named "Free"]

/-- A class is declared twice and there is no entry class, but no chain is broken. -/
def unbrokenProgram : List ClassDeclaration :=
  [.inheriting (.named "Rect") "Shape", .named "Shape", .named "Shape",
    .inheriting (.named "Console") "IO"]

/-- An error explains why `Tail` is unrooted, and `Under` is unrooted because of the error about
`Orphan`. The two errors of the other program are in nobody's way. -/
theorem severed_brokenProgram :
    let a := Analysis.build "Main" brokenProgram
    let g := a.hierarchy
    let b := Analysis.build "Main" unbrokenProgram
    (∃ y, g.links.Reaches 5 y ∧ ∃ e ∈ a.errors, g.nameOf y ∈ e.fault.severed) ∧
    g.isRooted 8 = false ∧
    b.errors.length = 2 ∧ (∀ e ∈ b.errors, e.fault.severed = []) ∧
    (∀ c < b.hierarchy.size, b.hierarchy.isRooted c = true) ∧
    (∃ j, b.hierarchy.join 5 7 = .ok j) ∧
    ∃ layout, (LayoutTable.build b.hierarchy).get? 5 = some layout := by
  intro a g b
  obtain ⟨hexplained, _⟩ := not_isRooted_iff_severed "Main" brokenProgram
  have htail : g.isRooted 5 = false := by decide +kernel
  have hunder : g.links.Reaches 8 9 := .of_parent? (by decide +kernel)
  have horphan : ∃ e ∈ a.errors, g.nameOf 9 ∈ e.fault.severed := by decide +kernel
  have hnone : ∀ e ∈ b.errors, e.fault.severed = [] := by decide +kernel
  obtain ⟨hrooted, hjoin, hlayout⟩ := (not_isRooted_iff_severed "Main" unbrokenProgram).2 hnone
  refine ⟨(hexplained 5 (by decide +kernel)).1 htail, ?_, by decide +kernel, hnone, hrooted,
    hjoin 5 (by decide +kernel) 7 (by decide +kernel), hlayout 5 (by decide +kernel)⟩
  exact (hexplained 8 (by decide +kernel)).2 ⟨9, hunder, horphan⟩

end CoolHierarchy
