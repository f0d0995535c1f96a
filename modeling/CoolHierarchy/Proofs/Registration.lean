import CoolHierarchy.Proofs.ErrorList
import CoolHierarchy.Proofs.LinkTables
import CoolHierarchy.Proofs.Roster

/-!
# Registering declarations one by one

A registry answers each declaration with an index or refuses it. The calls that it accepts make up
what is registered after the basic classes (`acceptedCalls`), and the answers written down under
their names are the look-up of names (`writtenIndices`). The same goes for a roster, with its table
of names and its note about the entry class.

* `registration_sound`: what a registry and a roster hold after any sequence of calls, and what one
  more call does.
-/

namespace CoolHierarchy.Registry

variable {r : Registry} {d : ClassDeclaration} {ds : List ClassDeclaration} {c : ClassIndex}
  {name : String}

/-! ## One call -/

theorem refusal?_eq_none_iff : r.refusal? d = none ↔
    d.name.name ∉ reservedNames ∧ ∀ e ∈ r.accepted, e.name.name ≠ d.name.name := by
  rw [refusal?]
  by_cases hres : d.name.name ∈ reservedNames
  · simp [isReservedName_iff, hres]
  · by_cases hhas : r.hasClass d.name.name = true
    · have htaken := (hasClass_iff.1 hhas).resolve_left hres
      simpa [isReservedName_iff, hres, hhas] using htaken
    · have hfree : ¬ ∃ e ∈ r.accepted, e.name.name = d.name.name :=
        fun htaken => hhas (hasClass_iff.2 (.inr htaken))
      simpa [isReservedName_iff, hres, hhas] using hfree

/-- A call is accepted when its name is neither reserved nor taken, and the answer is the next free
index. -/
theorem add_eq_some_iff : (r.add d).2 = some c ↔
    c = r.size ∧ d.name.name ∉ reservedNames ∧ ∀ e ∈ r.accepted, e.name.name ≠ d.name.name := by
  rw [← refusal?_eq_none_iff]
  cases h : r.refusal? d with
  | some fault => simp [add_of_refusal h]
  | none => simp [add_of_no_refusal h, eq_comm]

/-- A refused call leaves the registry as it was but for one more error. -/
theorem add_of_refused (h : (r.add d).2 = none) :
    ∃ fault, (r.add d).1 = { r with errors := r.errors.push { fault, span := d.span } } := by
  cases hrefusal : r.refusal? d with
  | some fault => exact ⟨fault, by rw [add_of_refusal hrefusal]⟩
  | none =>
    rw [add_of_no_refusal hrefusal] at h
    cases h

theorem add_of_accepted (h : (r.add d).2 = some c) :
    (r.add d).1 = { r with accepted := r.accepted.push d } ∧ c = r.size := by
  cases hrefusal : r.refusal? d with
  | some fault =>
    rw [add_of_refusal hrefusal] at h
    cases h
  | none =>
    rw [add_of_no_refusal hrefusal] at h ⊢
    cases h
    exact ⟨rfl, rfl⟩

/-- What is seen of a refused call. -/
theorem unchanged_of_refused (h : (r.add d).2 = none) :
    (r.add d).1.classes = r.classes ∧ (∀ name, (r.add d).1.indexOf? name = r.indexOf? name) ∧
      (r.add d).1.hasEntryClass = r.hasEntryClass ∧ ∃ e, (r.add d).1.errors = r.errors.push e := by
  obtain ⟨fault, hadd⟩ := add_of_refused h
  rw [hadd]
  exact ⟨rfl, fun _ => rfl, rfl, _, rfl⟩

/-- What is seen of an accepted one. -/
theorem changed_of_accepted (h : (r.add d).2 = some c) :
    (r.add d).1.classes = r.classes.push d ∧ (r.add d).1.errors = r.errors := by
  rw [(add_of_accepted h).1]
  simp [classes]

/-! ## A sequence of calls -/

/-- The calls that are accepted when declarations are taken in one after the other, each with the
index that is answered. -/
def acceptedCalls (r : Registry) : List ClassDeclaration → List (ClassDeclaration × ClassIndex)
  | [] => []
  | d :: ds => ((r.add d).2.map fun c => (d, c)).toList ++ (r.add d).1.acceptedCalls ds

/-- What is accepted is kept unchanged, in the order of the calls. -/
theorem accepted_addAll_eq (r : Registry) (ds : List ClassDeclaration) :
    (r.addAll ds).accepted.toList = r.accepted.toList ++ (r.acceptedCalls ds).map Prod.fst := by
  induction ds generalizing r with
  | nil => simp [addAll, acceptedCalls]
  | cons d ds ih =>
    show ((r.add d).1.addAll ds).accepted.toList = _
    rw [ih, acceptedCalls]
    cases h : (r.add d).2 with
    | none =>
      obtain ⟨fault, hadd⟩ := add_of_refused h
      simp [hadd]
    | some c => simp [(add_of_accepted h).1]

theorem accepted_eq_acceptedCalls (entryClass : String) (ds : List ClassDeclaration) :
    (addAll { entryClass } ds).accepted.toList =
      (acceptedCalls { entryClass } ds).map Prod.fst := by
  simpa using accepted_addAll_eq { entryClass } ds

/-- What is said of accepted declarations can be said of accepted calls. -/
theorem exists_mem_accepted_iff (entryClass : String) (ds : List ClassDeclaration)
    (P : ClassDeclaration → Prop) : (∃ d ∈ (addAll { entryClass } ds).accepted, P d) ↔
      ∃ call ∈ acceptedCalls { entryClass } ds, P call.1 := by
  simp only [← Array.mem_toList_iff, accepted_eq_acceptedCalls, List.mem_map]
  constructor
  · rintro ⟨_, ⟨call, hcall, rfl⟩, h⟩
    exact ⟨call, hcall, h⟩
  · rintro ⟨call, hcall, h⟩
    exact ⟨call.1, ⟨call, hcall, rfl⟩, h⟩

theorem forall_mem_accepted_iff (entryClass : String) (ds : List ClassDeclaration)
    (P : ClassDeclaration → Prop) : (∀ d ∈ (addAll { entryClass } ds).accepted, P d) ↔
      ∀ call ∈ acceptedCalls { entryClass } ds, P call.1 := by
  simpa using not_congr (exists_mem_accepted_iff entryClass ds fun d => ¬ P d)

/-- The answer to an accepted call is where the registry holds the declaration from then on. -/
theorem mem_acceptedCalls_iff (r : Registry) (ds : List ClassDeclaration) :
    (d, c) ∈ r.acceptedCalls ds ↔ r.size ≤ c ∧ (r.addAll ds).classes[c]? = some d := by
  induction ds generalizing r with
  | nil =>
    simp only [acceptedCalls, List.not_mem_nil, false_iff, not_and]
    intro hle hc
    exact Nat.not_le_of_lt (Array.getElem?_eq_some_iff.1 hc).1 hle
  | cons e ds ih =>
    rw [acceptedCalls, List.mem_append, ih]
    show _ ↔ _ ∧ ((r.add e).1.addAll ds).classes[c]? = some d
    cases h : (r.add e).2 with
    | none =>
      obtain ⟨fault, hadd⟩ := add_of_refused h
      simp [hadd, size, classes]
    | some n =>
      -- The index that is answered now holds `e`, and all later answers are greater.
      have hplace : ((r.add e).1.addAll ds).classes[n]? = some e := getElem?_classes_of_add h ds
      obtain ⟨hadd, rfl⟩ := add_of_accepted h
      have hsize : (r.add e).1.size = r.size + 1 := by
        rw [hadd, size_eq, size_eq, Array.size_push, Nat.add_assoc]
      rw [hsize]
      by_cases hc : c = r.size
      · subst hc
        simp [hplace, eq_comm]
      · have hlt : r.size + 1 ≤ c ↔ r.size ≤ c := by
          rw [Nat.succ_le_iff, Nat.lt_iff_le_and_ne, and_iff_left (Ne.symm hc)]
        simp [hc, hlt]

/-- Every call adds a class or an error. -/
theorem size_addAll (r : Registry) (ds : List ClassDeclaration) :
    (r.addAll ds).size + (r.addAll ds).errors.size = r.size + r.errors.size + ds.length := by
  induction ds generalizing r with
  | nil => rfl
  | cons d ds ih =>
    have hadd := size_add r d
    have hrest := ih (r.add d).1
    show ((r.add d).1.addAll ds).size + ((r.add d).1.addAll ds).errors.size = _
    rw [hrest, hadd, List.length_cons]
    omega

/-! ## Names and indices -/

/-- Among the registered classes a name is looked up where it is. -/
theorem WellFormed.indexOf?_eq_some_iff (hr : r.WellFormed) :
    r.indexOf? name = some c ↔ ∃ d, r.classes[c]? = some d ∧ d.name.name = name := by
  constructor
  · exact ClassDeclaration.exists_of_indexIn?
  · rintro ⟨d, hd, rfl⟩
    exact ClassDeclaration.indexIn?_of_getElem? hr.names_nodup hd

/-- The names of the basic classes and of the accepted calls, each written down with its index. -/
def writtenIndices (calls : List (ClassDeclaration × ClassIndex)) : List (String × ClassIndex) :=
  Builtin.all.map (fun b => (b.name, b.position)) ++
    calls.map fun (d, c) => (d.name.name, c)

/-- Only basic classes come before what is accepted first. -/
theorem exists_builtin_of_lt (h : c < Builtin.all.length) : ∃ b : Builtin, b.position = c := by
  have hall : ∀ i : Fin Builtin.all.length, Builtin.all[i].position = i := by decide
  exact ⟨Builtin.all[c], hall ⟨c, h⟩⟩

/-- Looking up a name finds what was written down, and nothing else was. -/
theorem indexOf?_iff_mem_writtenIndices (entryClass : String) (ds : List ClassDeclaration) :
    (addAll { entryClass } ds).indexOf? name = some c ↔
      (name, c) ∈ writtenIndices (acceptedCalls { entryClass } ds) := by
  rw [(Analysis.wellFormed_registry entryClass ds).indexOf?_eq_some_iff, writtenIndices,
    List.mem_append, List.mem_map, List.mem_map]
  constructor
  · rintro ⟨d, hd, rfl⟩
    rcases Nat.lt_or_ge c Builtin.all.length with hlt | hge
    · obtain ⟨b, rfl⟩ := exists_builtin_of_lt hlt
      rw [classes_getElem?_builtin] at hd
      cases hd
      exact .inl ⟨b, List.mem_of_getElem? (Builtin.all_getElem? b), by
        rw [Builtin.declaration_name]⟩
    · exact .inr ⟨(d, c), (mem_acceptedCalls_iff _ ds).2 ⟨hge, hd⟩, rfl⟩
  · rintro (⟨b, _, heq⟩ | ⟨⟨d, n⟩, hmem, heq⟩)
    · cases heq
      exact ⟨b.declaration, classes_getElem?_builtin _ b, Builtin.declaration_name b⟩
    · cases heq
      exact ⟨d, ((mem_acceptedCalls_iff _ ds).1 hmem).2, rfl⟩

end CoolHierarchy.Registry

namespace CoolHierarchy

/-- What a registry holds after any sequence of calls. The basic classes come first, then what was
accepted, unchanged and in order; names and indices determine each other, and the look-up of a name
is what the calls answered; every call added a class or an error. One more call is accepted when its
name is neither reserved nor that of an accepted call, and then answers the size that the registry
had; otherwise it answers nothing and leaves all but the errors, which grow by one, as it was.

A roster answers the same calls the same. Its classes are those of the registry, its table leads
from each of their names to the index and from no other name anywhere, and its note says whether the
entry class was accepted. An accepted call changes the table for its own name alone, and a refused
one leaves the roster as it was but for one more error. -/
theorem registration_sound (entryClass : String) (ds : List ClassDeclaration) :
    let r := Registry.addAll { entryClass } ds
    let calls := Registry.acceptedCalls { entryClass } ds
    let s := (Roster.withBuiltins entryClass).addAll ds
    r.classes.toList = Builtin.all.map Builtin.declaration ++ calls.map Prod.fst ∧
    (ClassDeclaration.namesOf r.classes).Nodup ∧
    (∀ name c, r.indexOf? name = some c ↔ ∃ d, r.classes[c]? = some d ∧ d.name.name = name) ∧
    (∀ name c, r.indexOf? name = some c ↔ (name, c) ∈ Registry.writtenIndices calls) ∧
    (r.hasEntryClass = true ↔ ∃ call ∈ calls, call.1.name.name = entryClass) ∧
    r.size + r.errors.size = 5 + ds.length ∧
    (∀ d,
      (∀ c, (r.add d).2 = some c ↔ c = r.size ∧ d.name.name ∉ reservedNames ∧
        ∀ call ∈ calls, call.1.name.name ≠ d.name.name) ∧
      (∀ c, (r.add d).2 = some c →
        (r.add d).1.classes = r.classes.push d ∧ (r.add d).1.errors = r.errors) ∧
      ((r.add d).2 = none →
        (r.add d).1.classes = r.classes ∧
        (∀ name, (r.add d).1.indexOf? name = r.indexOf? name) ∧
        (r.add d).1.hasEntryClass = r.hasEntryClass ∧
        ∃ e, (r.add d).1.errors = r.errors.push e)) ∧
    s.Keeps r ∧
    s.classes.toList = Builtin.all.map Builtin.declaration ++ calls.map Prod.fst ∧
    (∀ (name : String) (c : ClassIndex),
      s.indices[name]? = some c ↔ ∃ d, s.classes[c]? = some d ∧ d.name.name = name) ∧
    (∀ (name : String) (c : ClassIndex),
      s.indices[name]? = some c ↔ (name, c) ∈ Registry.writtenIndices calls) ∧
    (s.entryNoted = true ↔ ∃ call ∈ calls, call.1.name.name = entryClass) ∧
    s.classes.size + s.errors.size = 5 + ds.length ∧
    ∀ d,
      (s.add d).2 = (r.add d).2 ∧
      (∀ c, (s.add d).2 = some c →
        (s.add d).1.classes = s.classes.push d ∧ c = s.classes.size ∧
        (∀ name : String, (s.add d).1.indices[name]? =
          if d.name.name = name then some c else s.indices[name]?) ∧
        (s.add d).1.entryNoted = (s.entryNoted || d.name.name == entryClass) ∧
        (s.add d).1.errors = s.errors) ∧
      ((s.add d).2 = none → ∃ e, (s.add d).1 = { s with errors := s.errors.push e }) := by
  intro r calls s
  have hr : r.WellFormed := Analysis.wellFormed_registry entryClass ds
  have hkeeps : s.Keeps r := (Roster.keeps_withBuiltins entryClass).addAll ds
  have hentryClass : r.entryClass = entryClass := Registry.entryClass_addAll { entryClass } ds
  have hclasses : r.classes.toList = Builtin.all.map Builtin.declaration ++ calls.map Prod.fst := by
    rw [Registry.classes, Array.toList_append, Registry.accepted_eq_acceptedCalls]
  have hindex : ∀ name c,
      r.indexOf? name = some c ↔ ∃ d, r.classes[c]? = some d ∧ d.name.name = name :=
    fun name c => hr.indexOf?_eq_some_iff
  have hwritten : ∀ name c,
      r.indexOf? name = some c ↔ (name, c) ∈ Registry.writtenIndices calls :=
    fun name c => Registry.indexOf?_iff_mem_writtenIndices entryClass ds
  have hentry : r.hasEntryClass = true ↔ ∃ call ∈ calls, call.1.name.name = entryClass := by
    rw [Registry.hasEntryClass_eq_true_iff, hentryClass]
    exact Registry.exists_mem_accepted_iff entryClass ds fun d => d.name.name = entryClass
  have hsize : r.size + r.errors.size = 5 + ds.length := Registry.size_addAll { entryClass } ds
  refine ⟨hclasses, hr.names_nodup, hindex, hwritten, hentry, hsize, fun d => ?_, hkeeps,
    hkeeps.classes ▸ hclasses, fun name c => ?_, fun name c => ?_, hkeeps.entryNoted ▸ hentry, ?_,
    fun d => ?_⟩
  · refine ⟨fun c => ?_, fun c => Registry.changed_of_accepted, Registry.unchanged_of_refused⟩
    rw [Registry.add_eq_some_iff, Registry.forall_mem_accepted_iff]
  · rw [hkeeps.indices, hkeeps.classes]
    exact hindex name c
  · rw [hkeeps.indices]
    exact hwritten name c
  · rw [hkeeps.classes, hkeeps.errors]
    exact hsize
  · refine ⟨(hkeeps.add d).2, fun c hc => ?_, Roster.add_of_refused⟩
    have hnoted := Roster.entryNoted_of_accepted hc
    rw [hkeeps.entryClass, hentryClass] at hnoted
    exact ⟨Roster.classes_of_accepted hc, (Roster.add_of_accepted hc).2,
      Roster.indices_of_accepted hc, hnoted, Roster.errors_of_accepted hc⟩

end CoolHierarchy
