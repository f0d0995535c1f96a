import CoolHierarchy.Hierarchy.Links

/-!
# Tables of marks

A walk that must know where it has been keeps a table with one mark for each class. `Marks` tells
which classes are marked, and setting or taking away marks changes that as expected.
-/

namespace CoolHierarchy

/-- In a table for `n` classes those with a property are marked, and no others. -/
structure Marks (marks : Array Bool) (n : Nat) (P : ClassIndex → Prop) : Prop where
  size_eq : marks.size = n
  marked_iff : ∀ c, marks[c]? = some true ↔ P c

namespace Marks

variable {marks : Array Bool} {P Q : ClassIndex → Prop} {c : ClassIndex} {n : Nat}

theorem replicate (n : Nat) : Marks (Array.replicate n false) n fun _ => False where
  size_eq := Array.size_replicate
  marked_iff c := by simp [Array.getElem?_replicate]

theorem congr (h : Marks marks n P) (hPQ : ∀ c, P c ↔ Q c) : Marks marks n Q where
  size_eq := h.size_eq
  marked_iff c := (h.marked_iff c).trans (hPQ c)

theorem lt (h : Marks marks n P) (hc : P c) : c < n := by
  obtain ⟨hlt, _⟩ := Array.getElem?_eq_some_iff.1 ((h.marked_iff c).2 hc)
  rwa [h.size_eq] at hlt

theorem true_or_false (h : Marks marks n P) (hc : c < n) :
    marks[c]? = some true ∨ marks[c]? = some false := by
  have hlt : c < marks.size := h.size_eq.symm ▸ hc
  rw [Array.getElem?_eq_getElem hlt]
  cases marks[c] with
  | false => exact .inr rfl
  | true => exact .inl rfl

theorem not_of_unmarked (h : Marks marks n P) (hc : marks[c]? = some false) : ¬ P c := by
  rw [← h.marked_iff, hc]
  simp

theorem mark (h : Marks marks n P) (hc : c < n) :
    Marks (marks.setIfInBounds c true) n fun d => P d ∨ d = c where
  size_eq := Array.size_setIfInBounds.trans h.size_eq
  marked_iff d := by
    rw [Array.getElem?_setIfInBounds]
    split
    · next hcd =>
      rw [if_pos (h.size_eq.symm ▸ hc)]
      exact ⟨fun _ => .inr hcd.symm, fun _ => rfl⟩
    · next hcd =>
      rw [h.marked_iff]
      exact ⟨.inl, fun hd => hd.resolve_right (Ne.symm hcd)⟩

theorem foldl_mark (h : Marks marks n P) {cs : List ClassIndex} (hcs : ∀ c ∈ cs, c < n) :
    Marks (cs.foldl (fun marks c => marks.setIfInBounds c true) marks) n
      fun d => P d ∨ d ∈ cs := by
  induction cs generalizing marks P with
  | nil => exact h.congr fun d => (or_iff_left List.not_mem_nil).symm
  | cons c cs ih =>
    have hmark := h.mark (hcs c List.mem_cons_self)
    refine (ih hmark fun d hd => hcs d (List.mem_cons_of_mem c hd)).congr fun d => ?_
    rw [List.mem_cons, or_assoc]

theorem unmark (h : Marks marks n P) (c : ClassIndex) :
    Marks (marks.setIfInBounds c false) n fun d => P d ∧ d ≠ c where
  size_eq := Array.size_setIfInBounds.trans h.size_eq
  marked_iff d := by
    rw [Array.getElem?_setIfInBounds]
    split
    · next hcd =>
      constructor
      · intro hmark
        split at hmark <;> cases hmark
      · exact fun hd => absurd hcd.symm hd.2
    · next hcd =>
      rw [h.marked_iff]
      exact ⟨fun hd => ⟨hd, Ne.symm hcd⟩, And.left⟩

theorem foldl_unmark (h : Marks marks n P) (cs : List ClassIndex) :
    Marks (cs.foldl (fun marks c => marks.setIfInBounds c false) marks) n
      fun d => P d ∧ d ∉ cs := by
  induction cs generalizing marks P with
  | nil => exact h.congr fun d => (and_iff_left List.not_mem_nil).symm
  | cons c cs ih =>
    refine (ih (h.unmark c)).congr fun d => ?_
    rw [List.mem_cons, not_or, and_assoc]

end Marks

end CoolHierarchy
