import CoolHierarchy.Hierarchy.Cycle
import CoolHierarchy.Proofs.Walk

/-!
# What the search for cycles finds

* `cycles_sound`: every list that is reported is read off from a class on a cycle.
* `cycles_complete`: the class that a walk meets again is on a list that is reported.
* `exists_top_or_cycle`: so a walk comes to a class without a parent or to a reported class.
-/

namespace CoolHierarchy.Links

variable {l : Links} {a c e : ClassIndex} {seen xs : List ClassIndex}

/-! ## The first repetition of a list -/

theorem nodup_of_firstRepeat?_eq_none (h : firstRepeat? seen xs = none) :
    xs.Nodup ∧ ∀ x ∈ xs, x ∉ seen := by
  induction xs generalizing seen with
  | nil => exact ⟨List.nodup_nil, fun _ hx => absurd hx List.not_mem_nil⟩
  | cons x xs ih =>
    rw [firstRepeat?] at h
    split at h
    · cases h
    · next hx =>
      obtain ⟨hnodup, hnew⟩ := ih h
      refine ⟨List.nodup_cons.2 ⟨fun hmem => hnew x hmem List.mem_cons_self, hnodup⟩, ?_⟩
      intro y hy
      rcases List.mem_cons.1 hy with rfl | hy
      · simpa using hx
      · exact fun hseen => hnew y hy (List.mem_cons_of_mem _ hseen)

theorem exists_getElem?_of_firstRepeat? (h : firstRepeat? seen xs = some a) :
    ∃ j : Nat, xs[j]? = some a ∧ (a ∈ seen ∨ ∃ i < j, xs[i]? = some a) := by
  induction xs generalizing seen with
  | nil => cases h
  | cons x xs ih =>
    rw [firstRepeat?] at h
    split at h
    · next hx =>
      cases h
      exact ⟨0, rfl, .inl (by simpa using hx)⟩
    · obtain ⟨j, hj, hbefore⟩ := ih h
      refine ⟨j + 1, hj, ?_⟩
      rcases hbefore with hseen | ⟨i, hij, hi⟩
      · rcases List.mem_cons.1 hseen with rfl | hseen
        · exact .inr ⟨0, Nat.succ_pos j, rfl⟩
        · exact .inl hseen
      · exact .inr ⟨i + 1, Nat.succ_lt_succ hij, hi⟩

theorem mem_of_mem_untilRepeat (h : a ∈ untilRepeat seen xs) : a ∈ xs := by
  induction xs generalizing seen with
  | nil => exact h
  | cons x xs ih =>
    rw [untilRepeat] at h
    split at h
    · cases h
    · rcases List.mem_cons.1 h with rfl | h
      · exact List.mem_cons_self
      · exact List.mem_cons_of_mem _ (ih h)

/-! ## Where a walk enters a cycle -/

theorem exists_top_of_entrance?_eq_none (h : l.entrance? c = none) :
    ∃ t, l.Reaches c t ∧ l.parent? t = none :=
  exists_top_of_nodup (nodup_of_firstRepeat?_eq_none h).1

theorem reaches_of_entrance? (h : l.entrance? c = some e) : l.Reaches c e := by
  obtain ⟨j, hj, _⟩ := exists_getElem?_of_firstRepeat? h
  exact mem_lineage.1 (List.mem_of_getElem? hj)

theorem onCycle_of_entrance? (h : l.entrance? c = some e) : l.OnCycle e := by
  obtain ⟨j, hj, hseen | ⟨i, hij, hi⟩⟩ := exists_getElem?_of_firstRepeat? h
  · exact absurd hseen List.not_mem_nil
  · rw [getElem?_lineage] at hi hj
    split at hi
    · split at hj
      · exact onCycle_of_climb_eq hi hj hij
      · cases hj
    · cases hi

theorem reaches_of_mem_cycleFrom (h : a ∈ l.cycleFrom c) : l.Reaches c a := by
  rcases List.mem_cons.1 h with rfl | h
  · exact .refl a
  · exact (mem_ancestors.1 (mem_of_mem_untilRepeat h)).reaches

/-! ## Going through the classes -/

/-- What one class does to the list of cycles that are known. -/
theorem noteCycle_cases (l : Links) (known : List (List ClassIndex)) (c : ClassIndex) :
    (l.entrance? c = none ∧ l.noteCycle known c = known) ∨
    ∃ e, l.entrance? c = some e ∧
      (((∃ cycle ∈ known, e ∈ cycle) ∧ l.noteCycle known c = known) ∨
        ((¬ ∃ cycle ∈ known, e ∈ cycle) ∧ l.noteCycle known c = known ++ [l.cycleFrom e])) := by
  cases he : l.entrance? c with
  | none => exact .inl ⟨rfl, by rw [noteCycle, he]⟩
  | some e =>
    refine .inr ⟨e, rfl, ?_⟩
    by_cases hknown : known.any (·.contains e) = true
    · refine .inl ⟨?_, by simp only [noteCycle, he, if_pos hknown]⟩
      obtain ⟨cycle, hmem, hcon⟩ := List.any_eq_true.1 hknown
      exact ⟨cycle, hmem, List.contains_iff_mem.1 hcon⟩
    · refine .inr ⟨?_, by simp only [noteCycle, he, if_neg hknown]⟩
      rintro ⟨cycle, hmem, hin⟩
      exact hknown (List.any_eq_true.2 ⟨cycle, hmem, List.contains_iff_mem.2 hin⟩)

/-- Nothing that is known is dropped. -/
theorem subset_noteCycle (l : Links) (known : List (List ClassIndex)) (c : ClassIndex) :
    known ⊆ l.noteCycle known c := by
  rcases noteCycle_cases l known c with ⟨_, h⟩ | ⟨e, _, ⟨_, h⟩ | ⟨_, h⟩⟩
  · rw [h]
    exact List.Subset.refl _
  · rw [h]
    exact List.Subset.refl _
  · rw [h]
    exact List.subset_append_left _ _

theorem subset_foldl_noteCycle (l : Links) (cs : List ClassIndex)
    (known : List (List ClassIndex)) : known ⊆ cs.foldl l.noteCycle known := by
  induction cs generalizing known with
  | nil => exact List.Subset.refl _
  | cons c cs ih => exact List.Subset.trans (subset_noteCycle l known c) (ih _)

/-- The entry of the walk from a class is known once the search has come to the class. -/
theorem exists_mem_foldl_noteCycle {cs : List ClassIndex} (hc : c ∈ cs)
    (he : l.entrance? c = some e) (known : List (List ClassIndex)) :
    ∃ cycle ∈ cs.foldl l.noteCycle known, e ∈ cycle := by
  -- Either a known cycle has the entry, or a cycle that starts with the entry is added.
  induction cs generalizing known with
  | nil => cases hc
  | cons d cs ih =>
    rcases List.mem_cons.1 hc with rfl | hc
    · rcases noteCycle_cases l known c with ⟨hnone, _⟩ | ⟨e', he', ⟨⟨cycle, hmem, hin⟩, _⟩ | ⟨_, h⟩⟩
      · rw [he] at hnone
        cases hnone
      · rw [he] at he'
        cases he'
        exact ⟨cycle, subset_foldl_noteCycle l (c :: cs) known hmem, hin⟩
      · rw [he] at he'
        cases he'
        refine ⟨l.cycleFrom e, subset_foldl_noteCycle l cs _ ?_, List.mem_cons_self⟩
        rw [h]
        exact List.mem_append_right _ List.mem_cons_self
    · exact ih hc _

/-- What holds of the lists that are known and of each list that is read off at an entry holds of
all lists that the search ends with. -/
theorem forall_mem_foldl_noteCycle {P : List ClassIndex → Prop}
    (hentry : ∀ c e, l.entrance? c = some e → P (l.cycleFrom e)) (cs : List ClassIndex)
    {known : List (List ClassIndex)} (hknown : ∀ cycle ∈ known, P cycle) :
    ∀ cycle ∈ cs.foldl l.noteCycle known, P cycle := by
  -- What is known is the state of the search, so it stays free in the induction.
  induction cs generalizing known with
  | nil => exact hknown
  | cons c cs ih =>
    refine ih ?_
    rcases noteCycle_cases l known c with ⟨_, h⟩ | ⟨e, he, ⟨_, h⟩ | ⟨_, h⟩⟩
    · rwa [h]
    · rwa [h]
    · rw [h]
      intro cycle hmem
      rcases List.mem_append.1 hmem with hmem | hmem
      · exact hknown cycle hmem
      · cases List.mem_singleton.1 hmem
        exact hentry c e he

/-- Every list that is reported is read off from a class on a cycle. -/
theorem cycles_sound {cycle : List ClassIndex} (h : cycle ∈ l.cycles) :
    ∃ e, l.OnCycle e ∧ cycle = l.cycleFrom e := by
  have hentry : ∀ c e, l.entrance? c = some e →
      ∃ e', l.OnCycle e' ∧ l.cycleFrom e = l.cycleFrom e' := by
    intro c e he
    exact ⟨e, onCycle_of_entrance? he, rfl⟩
  have hnone : ∀ cycle ∈ ([] : List (List ClassIndex)),
      ∃ e, l.OnCycle e ∧ cycle = l.cycleFrom e :=
    fun _ hmem => absurd hmem List.not_mem_nil
  exact forall_mem_foldl_noteCycle (P := fun cycle => ∃ e, l.OnCycle e ∧ cycle = l.cycleFrom e)
    hentry _ hnone cycle h

/-- The class that a walk meets again is reported. -/
theorem cycles_complete (hc : c < l.size) (he : l.entrance? c = some e) :
    ∃ cycle ∈ l.cycles, e ∈ cycle :=
  exists_mem_foldl_noteCycle (List.mem_range.2 hc) he []

/-- All of a reported cycle is on a cycle. -/
theorem onCycle_of_mem_cycles {cycle : List ClassIndex} (h : cycle ∈ l.cycles) (ha : a ∈ cycle) :
    l.OnCycle a := by
  obtain ⟨e, he, rfl⟩ := cycles_sound h
  exact he.of_reaches (reaches_of_mem_cycleFrom ha)

/-- The walk from a class comes to a class without a parent or to a reported cycle. -/
theorem exists_top_or_cycle (hc : c < l.size) :
    (∃ t, l.Reaches c t ∧ l.parent? t = none) ∨
    ∃ e, l.Reaches c e ∧ ∃ cycle ∈ l.cycles, e ∈ cycle := by
  cases he : l.entrance? c with
  | none => exact .inl (exists_top_of_entrance?_eq_none he)
  | some e => exact .inr ⟨e, reaches_of_entrance? he, cycles_complete hc he⟩

end CoolHierarchy.Links
