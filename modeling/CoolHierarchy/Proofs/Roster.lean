import CoolHierarchy.Hierarchy.Analysis
import CoolHierarchy.Proofs.Registry

/-!
# Registering with an index of names

A registry looks through its classes for a name, and for its entry class. A `Roster` writes both
answers down as it goes: the index of each name, and a note once the entry class has come by. Only
one of the two ways into a roster takes that note. The basic classes go in by the other one.

* `add_of_accepted`, `add_of_refused`: what one call does to a roster.
* `Keeps.add`, `Keeps.addAll`: a roster holds what a registry holds, after one call and after all.
-/

namespace CoolHierarchy

/-- Classes with an index for each name and a note about the entry class, all kept up to date. -/
structure Roster where
  entryClass : String
  classes : Array ClassDeclaration := #[]
  indices : Std.HashMap String ClassIndex := ∅
  entryNoted : Bool := false
  errors : Array HierarchyError := #[]

namespace Roster

def hasClass (s : Roster) (name : String) : Bool :=
  s.indices.contains name

/-- Gives a class the next free index. -/
def enter (s : Roster) (d : ClassDeclaration) : Roster :=
  { s with
    classes := s.classes.push d
    indices := s.indices.insert d.name.name s.classes.size }

/-- The basic classes are entered, and none of them is compared with the entry class. -/
def withBuiltins (entryClass : String) : Roster :=
  (Builtin.all.map Builtin.declaration).foldl enter { entryClass }

def noteEntry (s : Roster) (d : ClassDeclaration) : Roster :=
  if d.name.name == s.entryClass then { s with entryNoted := true } else s

theorem noteEntry_eq (s : Roster) (d : ClassDeclaration) : s.noteEntry d =
    { s with entryNoted := s.entryNoted || d.name.name == s.entryClass } := by
  unfold noteEntry
  split
  · next h => simp [h]
  · next h => simp [h]

def refusal? (s : Roster) (d : ClassDeclaration) : Option Fault :=
  if isReservedName d.name.name then some (.reservedName d.name.name)
  else if s.hasClass d.name.name then some (.duplicateClass d.name.name)
  else none

/-- Takes in a declaration. An accepted one is compared with the entry class and entered. -/
def add (s : Roster) (d : ClassDeclaration) : Roster × Option ClassIndex :=
  match s.refusal? d with
  | some fault => ({ s with errors := s.errors.push { fault, span := d.span } }, none)
  | none => ((s.noteEntry d).enter d, some s.classes.size)

def addAll (s : Roster) (ds : List ClassDeclaration) : Roster :=
  ds.foldl (fun s d => (s.add d).1) s

/-- The error for a missing entry class goes by the note alone. -/
def entryErrors (s : Roster) : List HierarchyError :=
  if s.entryNoted then [] else [{ fault := .missingEntry s.entryClass }]

end Roster

/-! ## Written indices -/

/-- A class with a new name is found at the end, and all others where they were. -/
theorem ClassDeclaration.indexIn?_push {classes : Array ClassDeclaration} {d : ClassDeclaration}
    (hnew : indexIn? classes d.name.name = none) (name : String) :
    indexIn? (classes.push d) name =
      if d.name.name = name then some classes.size else indexIn? classes name := by
  unfold indexIn? at hnew ⊢
  rw [Array.findIdx?_push]
  by_cases hname : d.name.name = name
  · subst hname
    simp [hnew]
  · simp [hname]

namespace Roster

variable {s : Roster} {r : Registry} {d : ClassDeclaration} {ds : List ClassDeclaration}
  {c : ClassIndex}

/-- Each name is written down with the index of its class, and no other name is. -/
def Indexed (s : Roster) : Prop :=
  ∀ name, s.indices[name]? = ClassDeclaration.indexIn? s.classes name

/-- The name of an entered class leads to its index, and all other names lead where they did. -/
theorem getElem?_indices_enter (s : Roster) (d : ClassDeclaration) (name : String) :
    (s.enter d).indices[name]? =
      if d.name.name = name then some s.classes.size else s.indices[name]? := by
  show (s.indices.insert d.name.name s.classes.size)[name]? = _
  simp only [Std.HashMap.getElem?_insert, beq_iff_eq]

theorem Indexed.enter (hs : s.Indexed)
    (hnew : ClassDeclaration.indexIn? s.classes d.name.name = none) : (s.enter d).Indexed := by
  intro name
  rw [getElem?_indices_enter, hs name]
  exact (ClassDeclaration.indexIn?_push hnew name).symm

/-- Classes may be entered one after the other when their names are new and different. -/
theorem Indexed.foldl_enter (hs : s.Indexed)
    (hnames : (ClassDeclaration.namesOf s.classes ++ ds.map fun d => d.name.name).Nodup) :
    (ds.foldl Roster.enter s).Indexed := by
  induction ds generalizing s with
  | nil => exact hs
  | cons d ds ih =>
    have hnew : ClassDeclaration.indexIn? s.classes d.name.name = none := by
      rw [ClassDeclaration.indexIn?_eq_none_iff]
      intro e he
      exact (List.nodup_append.1 hnames).2.2 _
        (List.mem_map.2 ⟨e, Array.mem_toList_iff.2 he, rfl⟩) _ List.mem_cons_self
    refine ih (hs.enter hnew) ?_
    simpa [Roster.enter, ClassDeclaration.namesOf] using hnames

theorem indexed_withBuiltins (entryClass : String) : (withBuiltins entryClass).Indexed := by
  have hempty : Indexed { entryClass } := by
    intro name
    have hnone : ClassDeclaration.indexIn? #[] name = none := Array.findIdx?_empty
    exact Std.HashMap.getElem?_empty.trans hnone.symm
  exact hempty.foldl_enter Builtin.names_nodup

/-- Entering a class is not noting it. -/
theorem entryNoted_foldl_enter (s : Roster) (ds : List ClassDeclaration) :
    (ds.foldl enter s).entryNoted = s.entryNoted := by
  induction ds generalizing s with
  | nil => rfl
  | cons d ds ih => exact ih (s.enter d)

/-! ## One call -/

/-- A refused call leaves the roster as it was but for one more error. -/
theorem add_of_refused (h : (s.add d).2 = none) :
    ∃ e, (s.add d).1 = { s with errors := s.errors.push e } := by
  cases hrefusal : s.refusal? d with
  | some fault => exact ⟨_, by rw [add, hrefusal]⟩
  | none =>
    rw [add, hrefusal] at h
    cases h

theorem add_of_accepted (h : (s.add d).2 = some c) :
    (s.add d).1 = (s.noteEntry d).enter d ∧ c = s.classes.size := by
  cases hrefusal : s.refusal? d with
  | some fault =>
    rw [add, hrefusal] at h
    cases h
  | none =>
    rw [add, hrefusal] at h ⊢
    cases h
    exact ⟨rfl, rfl⟩

theorem classes_of_accepted (h : (s.add d).2 = some c) :
    (s.add d).1.classes = s.classes.push d := by
  rw [(add_of_accepted h).1, noteEntry_eq]
  rfl

theorem indices_of_accepted (h : (s.add d).2 = some c) (name : String) :
    (s.add d).1.indices[name]? = if d.name.name = name then some c else s.indices[name]? := by
  obtain ⟨hadd, rfl⟩ := add_of_accepted h
  rw [hadd, getElem?_indices_enter, noteEntry_eq]

theorem entryNoted_of_accepted (h : (s.add d).2 = some c) :
    (s.add d).1.entryNoted = (s.entryNoted || d.name.name == s.entryClass) := by
  rw [(add_of_accepted h).1, noteEntry_eq]
  rfl

theorem errors_of_accepted (h : (s.add d).2 = some c) : (s.add d).1.errors = s.errors := by
  rw [(add_of_accepted h).1, noteEntry_eq]
  rfl

/-! ## A roster beside a registry -/

/-- What a roster has written down is what a registry finds. -/
structure Keeps (s : Roster) (r : Registry) : Prop where
  entryClass : s.entryClass = r.entryClass
  classes : s.classes = r.classes
  indices : ∀ name, s.indices[name]? = r.indexOf? name
  entryNoted : s.entryNoted = r.hasEntryClass
  errors : s.errors = r.errors

theorem keeps_withBuiltins (entryClass : String) :
    (withBuiltins entryClass).Keeps { entryClass } where
  entryClass := rfl
  classes := rfl
  indices := indexed_withBuiltins entryClass
  entryNoted := (entryNoted_foldl_enter _ _).trans Array.any_empty.symm
  errors := rfl

namespace Keeps

theorem hasClass (h : s.Keeps r) (name : String) : s.hasClass name = r.hasClass name := by
  unfold Roster.hasClass Registry.hasClass
  rw [Std.HashMap.contains_eq_isSome_getElem?, h.indices]

theorem refusal? (h : s.Keeps r) (d : ClassDeclaration) : s.refusal? d = r.refusal? d := by
  unfold Roster.refusal? Registry.refusal?
  rw [h.hasClass]

theorem entryErrors (h : s.Keeps r) : s.entryErrors = r.entryErrors := by
  unfold Roster.entryErrors Registry.entryErrors
  rw [h.entryNoted, h.entryClass]

theorem refuse (h : s.Keeps r) (e : HierarchyError) :
    Keeps { s with errors := s.errors.push e } { r with errors := r.errors.push e } where
  entryClass := h.entryClass
  classes := h.classes
  indices := h.indices
  entryNoted := h.entryNoted
  errors := congrArg (·.push e) h.errors

theorem indexed (h : s.Keeps r) : s.Indexed := by
  intro name
  rw [h.indices, h.classes]
  rfl

/-- An accepted declaration is written down like any class, and is noted if it is the entry class. -/
theorem accept (h : s.Keeps r) (hnew : r.hasClass d.name.name = false) :
    Keeps ((s.noteEntry d).enter d) { r with accepted := r.accepted.push d } := by
  have hclasses : r.classes.push d = Registry.classes { r with accepted := r.accepted.push d } := by
    simp [Registry.classes]
  rw [noteEntry_eq]
  constructor
  · exact h.entryClass
  · show s.classes.push d = _
    rw [h.classes, hclasses]
  · intro name
    -- A table keeps the last index of a name and a look-up finds the first. The name is new, so
    -- there is only one.
    have hmissing : ClassDeclaration.indexIn? s.classes d.name.name = none := by
      rw [h.classes]
      exact ClassDeclaration.indexIn?_eq_none_iff.2 (Registry.hasClass_eq_false_iff.1 hnew)
    have hindex : (s.enter d).indices[name]? =
        ClassDeclaration.indexIn? (s.enter d).classes name := h.indexed.enter hmissing name
    rw [Registry.indexOf?, ← hclasses, ← h.classes]
    exact hindex
  · show (s.entryNoted || d.name.name == s.entryClass) = _
    rw [h.entryNoted, h.entryClass]
    simp [Registry.hasEntryClass]
  · exact h.errors

/-- One call leaves a roster and a registry with the same, and both give the same answer. -/
theorem add (h : s.Keeps r) (d : ClassDeclaration) :
    (s.add d).1.Keeps (r.add d).1 ∧ (s.add d).2 = (r.add d).2 := by
  unfold Roster.add Registry.add
  rw [h.refusal? d]
  cases hrefusal : r.refusal? d with
  | some fault => exact ⟨h.refuse { fault, span := d.span }, rfl⟩
  | none =>
    have hnew : r.hasClass d.name.name = false := by
      rcases Registry.refusal?_cases r d with hd | hd | ⟨_, _, hd⟩
      · cases hrefusal.symm.trans hd
      · cases hrefusal.symm.trans hd
      · exact hd
    refine ⟨h.accept hnew, ?_⟩
    show some s.classes.size = some r.classes.size
    rw [h.classes]

theorem addAll (h : s.Keeps r) (ds : List ClassDeclaration) : (s.addAll ds).Keeps (r.addAll ds) := by
  induction ds generalizing s r with
  | nil => exact h
  | cons d ds ih => exact ih (h.add d).1

end Keeps

end Roster

end CoolHierarchy
