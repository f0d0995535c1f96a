import CoolHierarchy.Proofs.Roster
import CoolHierarchy.Proofs.UnrelatedClass

/-!
# Noting the entry class

A roster takes a note of the entry class when it is declared, and the basic classes are never
declared. So a program can have its entry class and still be told that it is missing.

* `entry_class_noted`: the note, the look-up of the entry class and the error for a missing one agree
  in every program if the name of the entry class is not reserved, and in no program if it is.
-/

namespace CoolHierarchy

/-- An analysis reports that the entry class is missing. -/
def Analysis.MissesEntry (a : Analysis) : Prop :=
  ∃ e ∈ a.errors, ∃ name, e.fault = .missingEntry name

namespace Registry

variable {r : Registry}

/-- The entry class counts when it is registered, unless it is a basic class. -/
theorem WellFormed.hasEntryClass_iff (hr : r.WellFormed) : r.hasEntryClass = true ↔
    r.hasClass r.entryClass = true ∧ r.entryClass ∉ reservedNames := by
  rw [hasEntryClass_eq_true_iff, hasClass_iff]
  constructor
  · rintro ⟨d, hd, hname⟩
    refine ⟨.inr ⟨d, hd, hname⟩, fun hreserved => ?_⟩
    have hfree := hr.accepted_unreserved d hd
    rw [hname, isReservedName_iff.2 hreserved] at hfree
    cases hfree
  · rintro ⟨hclass, hfree⟩
    exact hclass.resolve_left hfree

theorem WellFormed.hasEntryClass_eq_iff (hr : r.WellFormed) :
    r.hasEntryClass = r.hasClass r.entryClass ↔ r.entryClass ∉ reservedNames := by
  rw [Bool.eq_iff_iff, hr.hasEntryClass_iff]
  constructor
  · intro h hreserved
    exact (h.2 (hasClass_iff.2 (.inl hreserved))).2 hreserved
  · intro hfree
    exact and_iff_left hfree

/-- The error for a missing entry class comes last, and only then. -/
theorem WellFormed.missesEntry_iff (hr : r.WellFormed) :
    r.analyze.MissesEntry ↔ r.hasEntryClass = false := by
  constructor
  · rintro ⟨e, he, name, hfault⟩
    cases hnoted : r.hasEntryClass with
    | false => rfl
    | true =>
      rw [analyze, entryErrors, if_pos hnoted, List.append_nil] at he
      exact absurd hfault (hr.fault_ne_missingEntry he name)
  · intro hnoted
    refine ⟨{ fault := .missingEntry r.entryClass }, ?_, r.entryClass, rfl⟩
    rw [analyze, entryErrors, hnoted]
    exact List.mem_append_right _ List.mem_cons_self

/-- The entry class is missing when it is not registered, and when it is a basic class. -/
theorem WellFormed.missesEntry_iff_unregistered (hr : r.WellFormed) : r.analyze.MissesEntry ↔
    r.hasClass r.entryClass = false ∨ r.entryClass ∈ reservedNames := by
  rw [hr.missesEntry_iff, ← Bool.not_eq_true, hr.hasEntryClass_iff, not_and_or, Bool.not_eq_true,
    not_not]

/-- What is reported missing is what is not registered, unless it is a basic class. -/
theorem WellFormed.missesEntry_true_iff (hr : r.WellFormed) :
    (r.analyze.MissesEntry ↔ r.hasClass r.entryClass = false) ↔ r.entryClass ∉ reservedNames := by
  rw [hr.missesEntry_iff_unregistered]
  constructor
  · intro h hreserved
    have hclass : r.hasClass r.entryClass = true := hasClass_iff.2 (.inl hreserved)
    rw [h.1 (.inr hreserved)] at hclass
    cases hclass
  · intro hfree
    exact or_iff_left hfree

end Registry

/-- What is known about the entry class after any sequence of calls and in the analysis of it. A
roster notes the entry class when it is registered and its name is not reserved, and the error for a
missing entry class is the last one of an analysis and goes by that note. So note and look-up, before
the analysis and after it, and the error agree for an entry class whose name is not reserved. For a
basic class they never agree: it is registered from the start, and reported missing in every
program. -/
theorem entry_class_noted (entryClass : String) (ds : List ClassDeclaration) :
    let s := (Roster.withBuiltins entryClass).addAll ds
    let a := Analysis.build entryClass ds
    s.Keeps (Registry.addAll { entryClass } ds) ∧
    (s.entryNoted = true ↔ s.hasClass entryClass = true ∧ entryClass ∉ reservedNames) ∧
    (s.entryNoted = s.hasClass entryClass ↔ entryClass ∉ reservedNames) ∧
    (a.hierarchy.hasEntryClass = s.entryNoted ∧
      ∀ name, a.hierarchy.hasClass name = s.hasClass name) ∧
    (∃ others, a.errors = others ++ s.entryErrors ∧
      ∀ e ∈ others, ∀ name, e.fault ≠ .missingEntry name) ∧
    (a.MissesEntry ↔
      (∀ d ∈ a.hierarchy.classes, d.name.name ≠ entryClass) ∨ entryClass ∈ reservedNames) ∧
    ((a.MissesEntry ↔ ∀ d ∈ a.hierarchy.classes, d.name.name ≠ entryClass) ↔
      entryClass ∉ reservedNames) := by
  intro s a
  have hr : (Registry.addAll { entryClass } ds).WellFormed :=
    Analysis.wellFormed_registry entryClass ds
  have hentry : (Registry.addAll { entryClass } ds).entryClass = entryClass :=
    Registry.entryClass_addAll { entryClass } ds
  have hkeeps : s.Keeps (Registry.addAll { entryClass } ds) :=
    (Roster.keeps_withBuiltins entryClass).addAll ds
  have hnoted := hr.hasEntryClass_iff
  have hagree := hr.hasEntryClass_eq_iff
  have hmissing := hr.missesEntry_iff_unregistered
  have htrue := hr.missesEntry_true_iff
  rw [hentry, Registry.hasClass_eq_false_iff] at hmissing htrue
  rw [hentry, ← hkeeps.entryNoted, ← hkeeps.hasClass] at hnoted hagree
  refine ⟨hkeeps, hnoted, hagree, ⟨hkeeps.entryNoted.symm, fun name => (hkeeps.hasClass name).symm⟩,
    ⟨_, ?_, fun e he => hr.fault_ne_missingEntry he⟩, hmissing, htrue⟩
  rw [hkeeps.entryErrors]
  rfl

/-- `IO` is registered before any call, and a program that is to start in it is told that it is
missing. -/
theorem basic_entry_class_unnoted :
    let s := Roster.withBuiltins "IO"
    let a := Analysis.build "IO" []
    s.hasClass "IO" = true ∧ s.entryNoted = false ∧
    a.hierarchy.hasClass "IO" = true ∧ a.hierarchy.hasEntryClass = false ∧
    a.errors = [{ fault := .missingEntry "IO" }] := by
  intro s a
  have hkeeps : s.Keeps { entryClass := "IO" } := Roster.keeps_withBuiltins "IO"
  have hclass : Registry.hasClass { entryClass := "IO" } "IO" = true := by decide +kernel
  refine ⟨(hkeeps.hasClass "IO").trans hclass, ?_, hclass, ?_, ?_⟩
  · exact Roster.entryNoted_foldl_enter _ _
  · decide +kernel
  · decide +kernel

end CoolHierarchy
