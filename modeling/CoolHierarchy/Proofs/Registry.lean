import CoolHierarchy.Hierarchy.Registry
import Mathlib.Data.List.Nodup

/-!
# What every registry keeps

However many declarations a registry takes in, its classes have different names, the basic ones
come first and are the only ones with reserved names, and its errors are refusals.
-/

namespace CoolHierarchy

/-! ## Looking up a name -/

/-- The names of classes, in the order of registration. -/
def ClassDeclaration.namesOf (classes : Array ClassDeclaration) : List String :=
  classes.toList.map fun d => d.name.name

namespace ClassDeclaration

variable {classes : Array ClassDeclaration} {name : String} {i j : ClassIndex}
  {d e : ClassDeclaration}

/-- Among different names an index and a name determine each other. -/
theorem index_eq_of_name_eq (h : (namesOf classes).Nodup) (hi : classes[i]? = some d)
    (hj : classes[j]? = some e) (hname : d.name.name = e.name.name) : i = j := by
  have hi' : (namesOf classes)[i]? = some d.name.name := by simp [namesOf, hi]
  have hj' : (namesOf classes)[j]? = some d.name.name := by simp [namesOf, hj, hname]
  have hlen : i < (namesOf classes).length := (List.getElem?_eq_some_iff.1 hi').1
  exact (List.getElem?_inj hlen h).1 (hi'.trans hj'.symm)

theorem exists_of_indexIn? (h : indexIn? classes name = some i) :
    ∃ d, classes[i]? = some d ∧ d.name.name = name := by
  obtain ⟨hlt, hname, _⟩ := Array.findIdx?_eq_some_iff_getElem.1 h
  exact ⟨classes[i], Array.getElem?_eq_getElem hlt, by simpa using hname⟩

theorem indexIn?_eq_none_iff :
    indexIn? classes name = none ↔ ∀ d ∈ classes, d.name.name ≠ name := by
  rw [indexIn?, Array.findIdx?_eq_none_iff]
  simp only [beq_eq_false_iff_ne]

/-- Among different names the index of a class is found by its name. -/
theorem indexIn?_of_getElem? (h : (namesOf classes).Nodup) (hi : classes[i]? = some d) :
    indexIn? classes d.name.name = some i := by
  cases hfound : indexIn? classes d.name.name with
  | none => exact absurd rfl (indexIn?_eq_none_iff.1 hfound d (Array.mem_of_getElem? hi))
  | some j =>
    obtain ⟨e, hj, hname⟩ := exists_of_indexIn? hfound
    rw [index_eq_of_name_eq h hj hi hname]

end ClassDeclaration

/-! ## Basic classes -/

namespace Builtin

/-- The names of basic classes are different. -/
theorem names_nodup : (all.map fun b => b.declaration.name.name).Nodup := by decide

end Builtin

namespace Registry

variable {r : Registry} {d : ClassDeclaration} {b : Builtin} {c : ClassIndex}

theorem mem_classes : d ∈ r.classes ↔ (∃ b : Builtin, d = b.declaration) ∨ d ∈ r.accepted := by
  simp only [classes, Array.mem_append, List.mem_toArray, List.mem_map]
  constructor
  · rintro (⟨b, _, rfl⟩ | h)
    · exact .inl ⟨b, rfl⟩
    · exact .inr h
  · rintro (⟨b, rfl⟩ | h)
    · exact .inl ⟨b, List.mem_of_getElem? (Builtin.all_getElem? b), rfl⟩
    · exact .inr h

/-- A basic class is registered at its position. -/
theorem classes_getElem?_builtin (r : Registry) (b : Builtin) :
    r.classes[b.position]? = some b.declaration := by
  have hb : (Builtin.all.map Builtin.declaration).toArray[b.position]? = some b.declaration := by
    simp [Builtin.all_getElem?]
  rw [classes, Array.getElem?_append_left (Array.getElem?_eq_some_iff.1 hb).1, hb]

theorem hasClass_eq_false_iff {name : String} :
    r.hasClass name = false ↔ ∀ d ∈ r.classes, d.name.name ≠ name := by
  rw [hasClass, indexOf?, Option.isSome_eq_false_iff, Option.isNone_iff_eq_none,
    ClassDeclaration.indexIn?_eq_none_iff]

theorem hasEntryClass_eq_true_iff :
    r.hasEntryClass = true ↔ ∃ d ∈ r.accepted, d.name.name = r.entryClass := by
  simp only [hasEntryClass, Array.any_eq_true', beq_iff_eq]

/-- What stays true of a registry whatever it takes in. -/
structure WellFormed (r : Registry) : Prop where
  names_nodup : (ClassDeclaration.namesOf r.classes).Nodup
  accepted_unreserved : ∀ d ∈ r.accepted, isReservedName d.name.name = false
  errors_refusals : ∀ e ∈ r.errors,
    ∃ name, e.fault = .reservedName name ∨ e.fault = .duplicateClass name

theorem wellFormed_initial (entryClass : String) : WellFormed { entryClass } where
  names_nodup := Builtin.names_nodup
  accepted_unreserved d hd := absurd hd (Array.not_mem_empty d)
  errors_refusals e he := absurd he (Array.not_mem_empty e)

theorem refusal?_cases (r : Registry) (d : ClassDeclaration) :
    r.refusal? d = some (.reservedName d.name.name) ∨
    r.refusal? d = some (.duplicateClass d.name.name) ∨
    (r.refusal? d = none ∧ isReservedName d.name.name = false ∧
      r.hasClass d.name.name = false) := by
  simp only [refusal?]
  split
  · exact .inl rfl
  · next hres =>
    split
    · exact .inr (.inl rfl)
    · next hhas => exact .inr (.inr ⟨rfl, by simpa using hres, by simpa using hhas⟩)

theorem WellFormed.refuse (hr : r.WellFormed) {fault : Fault} {name : String} {span : Span}
    (hfault : fault = .reservedName name ∨ fault = .duplicateClass name) :
    WellFormed { r with errors := r.errors.push { fault, span } } where
  names_nodup := hr.names_nodup
  accepted_unreserved := hr.accepted_unreserved
  errors_refusals := by
    intro e he
    rcases Array.mem_push.1 he with he | rfl
    · exact hr.errors_refusals e he
    · exact ⟨name, hfault⟩

theorem WellFormed.accept (hr : r.WellFormed) (hres : isReservedName d.name.name = false)
    (hhas : r.hasClass d.name.name = false) :
    WellFormed { r with accepted := r.accepted.push d } where
  names_nodup := by
    have hnames : ClassDeclaration.namesOf (classes { r with accepted := r.accepted.push d }) =
        ClassDeclaration.namesOf r.classes ++ [d.name.name] := by
      simp [ClassDeclaration.namesOf, classes]
    rw [hnames, ← List.concat_eq_append, List.nodup_concat]
    refine ⟨?_, hr.names_nodup⟩
    intro hmem
    obtain ⟨e, he, hname⟩ := List.mem_map.1 hmem
    exact hasClass_eq_false_iff.1 hhas e (Array.mem_toList_iff.1 he) hname
  accepted_unreserved := by
    intro e he
    rcases Array.mem_push.1 he with he | rfl
    · exact hr.accepted_unreserved e he
    · exact hres
  errors_refusals := hr.errors_refusals

theorem WellFormed.add (hr : r.WellFormed) (d : ClassDeclaration) : (r.add d).1.WellFormed := by
  rcases refusal?_cases r d with h | h | ⟨h, hres, hhas⟩
  · rw [add_of_refusal h]
    exact hr.refuse (.inl rfl)
  · rw [add_of_refusal h]
    exact hr.refuse (.inr rfl)
  · rw [add_of_no_refusal h]
    exact hr.accept hres hhas

theorem WellFormed.addAll (hr : r.WellFormed) (ds : List ClassDeclaration) :
    (r.addAll ds).WellFormed := by
  induction ds generalizing r with
  | nil => exact hr
  | cons d ds ih => exact ih (hr.add d)

/-- Only a basic class has the name of one. -/
theorem WellFormed.eq_builtin (hr : r.WellFormed) (hd : d ∈ r.classes)
    (hb : Builtin.ofName? d.name.name = some b) : d = b.declaration := by
  rcases mem_classes.1 hd with ⟨b', rfl⟩ | hacc
  · rw [Builtin.declaration_name, Builtin.ofName?_name] at hb
    cases hb
    rfl
  · have hres := hr.accepted_unreserved d hacc
    rw [isReservedName, hb] at hres
    cases hres

/-- A basic class is registered nowhere but at its position. -/
theorem WellFormed.index_builtin (hr : r.WellFormed) (hc : r.classes[c]? = some b.declaration) :
    c = b.position :=
  ClassDeclaration.index_eq_of_name_eq hr.names_nodup hc (classes_getElem?_builtin r b) rfl

end Registry

end CoolHierarchy
