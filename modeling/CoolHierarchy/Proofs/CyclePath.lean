import CoolHierarchy.Proofs.Cycle
import Mathlib.Data.List.Cycle

/-!
# Cycles as closed paths

A cycle of parent links, read off from one of its classes, is a list in which every class is a
child of the next one and the last is a child of the first. Another start gives the same list
turned around (`IsCycle.isRotated`). The search lists every cycle once, in this form
(`areCycles_cycles`). Lists of the same cycles have the same members but for turns
(`AreCycles.perm`).
-/

namespace CoolHierarchy.Links

variable {l : Links} {a b c e p : ClassIndex} {seen xs ys : List ClassIndex} {i n : Nat}

/-- A closed path that passes no class twice: each item is a child of the next one, and the last of
the first. -/
structure IsCycle (l : Links) (xs : List ClassIndex) : Prop where
  ne_nil : xs ≠ []
  nodup : xs.Nodup
  parent? : ∀ (i : Nat) (h : i < xs.length), l.parent? xs[i] = xs[(i + 1) % xs.length]?

/-- The lists are the cycles of the links, each of them once. -/
structure AreCycles (l : Links) (cycles : List (List ClassIndex)) : Prop where
  isCycle : ∀ cycle ∈ cycles, l.IsCycle cycle
  complete : ∀ c, l.OnCycle c → ∃ cycle ∈ cycles, c ∈ cycle
  disjoint : cycles.Pairwise List.Disjoint

/-! ## Around a cycle -/

theorem climb_succ_last (l : Links) (n : Nat) (c : ClassIndex) :
    l.climb (n + 1) c = (l.climb n c).bind l.parent? := by
  rw [climb_add]
  congr 1
  funext d
  cases h : l.parent? d with
  | none => rw [climb_succ_of_top h]
  | some p => rw [climb_succ_of_parent? h, climb_zero]

namespace IsCycle

theorem length_pos (h : l.IsCycle xs) : 0 < xs.length :=
  List.length_pos_of_ne_nil h.ne_nil

/-- Links lead around a cycle. -/
theorem climb (h : l.IsCycle xs) (hi : i < xs.length) (n : Nat) :
    l.climb n xs[i] = xs[(i + n) % xs.length]? := by
  induction n with
  | zero => rw [climb_zero, Nat.add_zero, Nat.mod_eq_of_lt hi, List.getElem?_eq_getElem hi]
  | succ n ih =>
    have hlt : (i + n) % xs.length < xs.length := Nat.mod_lt _ h.length_pos
    rw [climb_succ_last, ih, List.getElem?_eq_getElem hlt, Option.bind_some, h.parent?,
      Nat.mod_add_mod, Nat.add_assoc]

/-- Nothing but the cycle is above a class of a cycle. -/
theorem mem_of_reaches (h : l.IsCycle xs) (ha : a ∈ xs) (hab : l.Reaches a b) : b ∈ xs := by
  obtain ⟨i, hi, rfl⟩ := List.mem_iff_getElem.1 ha
  obtain ⟨n, hn⟩ := reaches_iff_climb.1 hab
  rw [h.climb hi] at hn
  exact List.mem_of_getElem? hn

/-- The links lead from any class of a cycle to any other. -/
theorem below (h : l.IsCycle xs) (ha : a ∈ xs) (hb : b ∈ xs) : l.Below a b := by
  obtain ⟨i, hi, rfl⟩ := List.mem_iff_getElem.1 ha
  obtain ⟨j, hj, rfl⟩ := List.mem_iff_getElem.1 hb
  -- One full turn is added, so that there is a link to follow also when the two are the same.
  refine below_iff_climb.2 ⟨xs.length - i + j + (xs.length - 1), ?_⟩
  have hturns : i + (xs.length - i + j + (xs.length - 1) + 1) = j + xs.length + xs.length := by
    omega
  rw [h.climb hi, hturns, Nat.add_mod_right, Nat.add_mod_right, Nat.mod_eq_of_lt hj,
    List.getElem?_eq_getElem hj]

theorem onCycle (h : l.IsCycle xs) (ha : a ∈ xs) : l.OnCycle a :=
  h.below ha ha

/-- A cycle may be read off from any of its classes. -/
theorem rotate (h : l.IsCycle xs) (n : Nat) : l.IsCycle (xs.rotate n) where
  ne_nil := by
    rw [Ne, List.rotate_eq_nil_iff]
    exact h.ne_nil
  nodup := List.nodup_rotate.2 h.nodup
  parent? := by
    intro i hi
    have hlt : (i + n) % xs.length < xs.length := Nat.mod_lt _ h.length_pos
    have hlt' : (i + 1) % xs.length < xs.length := Nat.mod_lt _ h.length_pos
    rw [List.getElem_rotate, h.parent?, List.length_rotate, List.getElem?_rotate hlt']
    congr 1
    rw [Nat.mod_add_mod, Nat.mod_add_mod, Nat.add_right_comm]

/-- A cycle comes back to its start no sooner than another one that starts there too. -/
theorem length_le_of_head? (hx : l.IsCycle xs) (hy : l.IsCycle ys) (hhead : xs.head? = ys.head?) :
    xs.length ≤ ys.length := by
  by_contra hlong
  have hlt : ys.length < xs.length := Nat.lt_of_not_le hlong
  rw [List.head?_eq_getElem?, List.head?_eq_getElem?, List.getElem?_eq_getElem hx.length_pos,
    List.getElem?_eq_getElem hy.length_pos, Option.some_inj] at hhead
  -- After one turn of `ys` the walk is back at the start, where `xs` has another class.
  have hturn := hx.climb hx.length_pos ys.length
  rw [hhead, hy.climb hy.length_pos, Nat.zero_add, Nat.mod_self, Nat.mod_eq_of_lt hlt,
    List.getElem?_eq_getElem hy.length_pos, ← hhead, ← List.getElem?_eq_getElem hx.length_pos,
    List.getElem?_inj hx.length_pos hx.nodup] at hturn
  exact Nat.ne_of_lt hy.length_pos hturn

/-- Where a cycle is entered decides how it reads. -/
theorem eq_of_head? (hx : l.IsCycle xs) (hy : l.IsCycle ys) (hhead : xs.head? = ys.head?) :
    xs = ys := by
  have hlen : xs.length = ys.length :=
    Nat.le_antisymm (hx.length_le_of_head? hy hhead) (hy.length_le_of_head? hx hhead.symm)
  rw [List.head?_eq_getElem?, List.head?_eq_getElem?, List.getElem?_eq_getElem hx.length_pos,
    List.getElem?_eq_getElem hy.length_pos, Option.some_inj] at hhead
  refine List.ext_getElem hlen ?_
  intro i hi hi'
  have hitem := hx.climb hx.length_pos i
  rw [hhead, hy.climb hy.length_pos, Nat.zero_add, Nat.mod_eq_of_lt hi,
    Nat.mod_eq_of_lt hi', List.getElem?_eq_getElem hi, List.getElem?_eq_getElem hi'] at hitem
  exact (Option.some.inj hitem).symm

/-- Two cycles with a class in common are one, turned around. -/
theorem isRotated (hx : l.IsCycle xs) (hy : l.IsCycle ys) (ha : a ∈ xs) (hb : a ∈ ys) :
    xs ~r ys := by
  obtain ⟨i, hi, rfl⟩ := List.mem_iff_getElem.1 ha
  obtain ⟨j, hj, hij⟩ := List.mem_iff_getElem.1 hb
  have hhead : (xs.rotate i).head? = (ys.rotate j).head? := by
    rw [List.head?_rotate hi, List.head?_rotate hj, List.getElem?_eq_getElem hi,
      List.getElem?_eq_getElem hj, hij]
  have heq : xs.rotate i = ys.rotate j := (hx.rotate i).eq_of_head? (hy.rotate j) hhead
  have hxs : xs ~r xs.rotate i := ⟨i, rfl⟩
  rw [heq] at hxs
  exact hxs.trans (.symm ⟨j, rfl⟩)

end IsCycle

/-! ## The lists that the search reads off -/

/-- A list is cut where an item is known already. -/
theorem exists_untilRepeat_append (seen xs : List ClassIndex) :
    ∃ rest, xs = untilRepeat seen xs ++ rest ∧ (untilRepeat seen xs).Nodup ∧
      (∀ x ∈ untilRepeat seen xs, x ∉ seen) ∧
      ∀ x ∈ rest.head?, x ∈ seen ∨ x ∈ untilRepeat seen xs := by
  induction xs generalizing seen with
  | nil => exact ⟨[], rfl, List.nodup_nil, fun _ hx => absurd hx List.not_mem_nil, by simp⟩
  | cons x xs ih =>
    by_cases hx : x ∈ seen
    · have hcut : untilRepeat seen (x :: xs) = [] := by simp [untilRepeat, hx]
      rw [hcut]
      refine ⟨x :: xs, rfl, List.nodup_nil, fun _ hx => absurd hx List.not_mem_nil, ?_⟩
      intro y hy
      cases hy
      exact .inl hx
    · have hkeep : untilRepeat seen (x :: xs) = x :: untilRepeat (x :: seen) xs := by
        simp [untilRepeat, hx]
      obtain ⟨rest, hsplit, hnodup, hnew, hrest⟩ := ih (x :: seen)
      rw [hkeep]
      refine ⟨rest, by rw [List.cons_append, ← hsplit], ?_, ?_, ?_⟩
      · exact List.nodup_cons.2 ⟨fun h => hnew x h List.mem_cons_self, hnodup⟩
      · intro y hy
        cases hy with
        | head => exact hx
        | tail _ hy => exact fun h => hnew y hy (List.mem_cons_of_mem x h)
      · intro y hy
        rcases hrest y hy with h | h
        · cases h with
          | head => exact .inr List.mem_cons_self
          | tail _ h => exact .inl h
        · exact .inr (List.mem_cons_of_mem x h)

/-- A walk begins with the classes that it lists before it meets one of them again. -/
theorem exists_lineage_eq_append (l : Links) (c : ClassIndex) :
    ∃ rest, l.lineage c = l.cycleFrom c ++ rest ∧ (l.cycleFrom c).Nodup ∧
      ∀ x ∈ rest.head?, x ∈ l.cycleFrom c := by
  obtain ⟨rest, hsplit, hnodup, hnew, hrest⟩ := exists_untilRepeat_append [c] (l.ancestors c)
  refine ⟨rest, congrArg (c :: ·) hsplit, ?_, ?_⟩
  · exact List.nodup_cons.2 ⟨fun hmem => hnew c hmem List.mem_cons_self, hnodup⟩
  · intro x hx
    rcases hrest x hx with h | h
    · rw [List.mem_singleton.1 h]
      exact List.mem_cons_self
    · exact List.mem_cons_of_mem c h

/-- The walk from a class on a cycle goes once around the cycle before anything is met twice, and
what is met first after that is met again. -/
theorem OnCycle.exists_lineage_eq (h : l.OnCycle e) :
    ∃ x rest, l.lineage e = l.cycleFrom e ++ x :: rest ∧ (l.cycleFrom e).Nodup ∧
      x ∈ l.cycleFrom e := by
  obtain ⟨rest, hlineage, hnodup, hrest⟩ := exists_lineage_eq_append l e
  cases rest with
  | nil =>
    rw [List.append_nil] at hlineage
    obtain ⟨t, ht, htop⟩ := exists_top_of_nodup (hlineage ▸ hnodup)
    exact absurd ht (h.not_reaches_top htop)
  | cons x rest => exact ⟨x, rest, hlineage, hnodup, hrest x rfl⟩

/-- Every item of a walk is a child of the next one. -/
theorem parent?_of_lineage_eq_append {x : ClassIndex} {rest : List ClassIndex}
    (h : l.lineage c = xs ++ x :: rest) (hi : i < xs.length) :
    l.parent? xs[i] = (xs ++ [x])[i + 1]? := by
  have hitem : ∀ j, j < xs.length + 1 → (l.lineage c)[j]? = (xs ++ [x])[j]? := by
    intro j hj
    rw [h, ← List.singleton_append, ← List.append_assoc,
      List.getElem?_append_left (by simpa using hj)]
  have hhere := hitem i (Nat.lt_succ_of_lt hi)
  have hnext := hitem (i + 1) (Nat.succ_lt_succ hi)
  rw [List.getElem?_append_left hi, List.getElem?_eq_getElem hi, getElem?_lineage] at hhere
  rw [getElem?_lineage] at hnext
  split at hhere
  · split at hnext
    · rw [← hnext, climb_succ_last, hhere, Option.bind_some]
    · -- The walk has another item, so it is not cut here.
      rw [List.getElem?_eq_getElem (by simpa using hi)] at hnext
      cases hnext
  · cases hhere

/-- The first class that is met again on the walk from a class on a cycle is that class. -/
theorem OnCycle.eq_start (h : l.OnCycle e) {x : ClassIndex} {rest : List ClassIndex}
    (hlineage : l.lineage e = xs ++ x :: rest) (hnodup : xs.Nodup) (hx : x ∈ xs) : x = e := by
  obtain ⟨j, hj, hxj⟩ := List.mem_iff_getElem.1 hx
  have hstart : xs[0]? = some e := by
    have hhead := congrArg List.head? hlineage
    rw [List.head?_append_of_ne_nil _ (List.ne_nil_of_mem hx)] at hhead
    rw [← List.head?_eq_getElem?]
    exact hhead.symm
  -- From `x` the walk stays among the items from `x` on, but it leads back to the very first.
  have hback : l.Reaches x e := by
    refine h.reaches_back (mem_lineage.1 ?_)
    rw [hlineage]
    exact List.mem_append_left _ hx
  have hlater : ∃ k, j ≤ k ∧ xs[k]? = some e := by
    refine hback.closed (P := fun y => ∃ k, j ≤ k ∧ xs[k]? = some y) ?_
      ⟨j, Nat.le_refl j, by rw [List.getElem?_eq_getElem hj, hxj]⟩
    rintro c p ⟨k, hjk, hk⟩ hp
    obtain ⟨hklt, rfl⟩ := List.getElem?_eq_some_iff.1 hk
    rw [parent?_of_lineage_eq_append hlineage hklt] at hp
    rcases Nat.lt_or_ge (k + 1) xs.length with hlt | hge
    · exact ⟨k + 1, Nat.le_succ_of_le hjk, by rw [← hp, List.getElem?_append_left hlt]⟩
    · have hlast : k + 1 = xs.length := Nat.le_antisymm hklt hge
      rw [hlast, List.getElem?_concat_length] at hp
      cases hp
      exact ⟨j, Nat.le_refl j, by rw [List.getElem?_eq_getElem hj, hxj]⟩
  obtain ⟨k, hjk, hk⟩ := hlater
  have hpos : 0 < xs.length := Nat.zero_lt_of_lt hj
  have hk0 : 0 = k := (List.getElem?_inj hpos hnodup).1 (hstart.trans hk.symm)
  have hj0 : j = 0 := by omega
  subst hj0
  rw [List.getElem?_eq_getElem hj, hxj] at hstart
  exact Option.some.inj hstart

/-- Where a walk meets a class again for the first time it closes a cycle. -/
theorem isCycle_of_lineage_eq {lead tail rest : List ClassIndex}
    (h : l.lineage c = (lead ++ e :: tail) ++ e :: rest) (hnodup : (e :: tail).Nodup) :
    l.IsCycle (e :: tail) := by
  refine ⟨List.cons_ne_nil e tail, hnodup, ?_⟩
  intro i hi
  have hlt : lead.length + i < (lead ++ e :: tail).length := by
    rw [List.length_append]
    exact Nat.add_lt_add_left hi _
  have hparent := parent?_of_lineage_eq_append h hlt
  rw [List.getElem_append_right (Nat.le_add_right _ _)] at hparent
  simp only [Nat.add_sub_cancel_left] at hparent
  rw [hparent, List.append_assoc, Nat.add_assoc,
    List.getElem?_append_right (Nat.le_add_right _ _), Nat.add_sub_cancel_left]
  rcases Nat.lt_or_ge (i + 1) (e :: tail).length with hnext | hlast
  · rw [List.getElem?_append_left hnext, Nat.mod_eq_of_lt hnext]
  · have hend : i + 1 = (e :: tail).length := Nat.le_antisymm hi hlast
    rw [hend, List.getElem?_concat_length, Nat.mod_self]
    rfl

/-- Read off from a class on a cycle, the list of what is above the class is the cycle. -/
theorem OnCycle.isCycle_cycleFrom (h : l.OnCycle e) : l.IsCycle (l.cycleFrom e) := by
  obtain ⟨x, rest, hlineage, hnodup, hx⟩ := h.exists_lineage_eq
  obtain rfl : x = e := h.eq_start hlineage hnodup hx
  exact @isCycle_of_lineage_eq l x x [] _ rest hlineage hnodup

/-! ## All cycles -/

/-- The lists are cycles, and no class is in two of them. -/
def Separate (l : Links) (cycles : List (List ClassIndex)) : Prop :=
  (∀ cycle ∈ cycles, l.IsCycle cycle) ∧ cycles.Pairwise List.Disjoint

/-- A cycle whose entry is in no known list has nothing in common with any of them. -/
theorem Separate.append_cycleFrom {known : List (List ClassIndex)} (hknown : l.Separate known)
    (he : l.OnCycle e) (hnew : ¬ ∃ cycle ∈ known, e ∈ cycle) :
    l.Separate (known ++ [l.cycleFrom e]) := by
  obtain ⟨hcycle, hdisjoint⟩ := hknown
  constructor
  · intro cycle hmem
    rcases List.mem_append.1 hmem with hmem | hmem
    · exact hcycle cycle hmem
    · cases List.mem_singleton.1 hmem
      exact he.isCycle_cycleFrom
  · refine List.pairwise_append.2 ⟨hdisjoint, List.pairwise_singleton _ _, ?_⟩
    intro cycle hmem other hother a ha ha'
    cases List.mem_singleton.1 hother
    -- From a common class the links lead back to the entry, which the known cycle then has.
    have hback := he.reaches_back (reaches_of_mem_cycleFrom ha')
    exact hnew ⟨cycle, hmem, (hcycle cycle hmem).mem_of_reaches ha hback⟩

theorem Separate.noteCycle {known : List (List ClassIndex)} (hknown : l.Separate known)
    (c : ClassIndex) : l.Separate (l.noteCycle known c) := by
  rcases noteCycle_cases l known c with ⟨_, h⟩ | ⟨e, he, ⟨_, h⟩ | ⟨hnew, h⟩⟩
  · rw [h]
    exact hknown
  · rw [h]
    exact hknown
  · have hcycle := onCycle_of_entrance? he
    rw [h]
    exact hknown.append_cycleFrom hcycle hnew

theorem Separate.foldl_noteCycle {known : List (List ClassIndex)} (hknown : l.Separate known)
    (cs : List ClassIndex) : l.Separate (cs.foldl l.noteCycle known) := by
  induction cs generalizing known with
  | nil => exact hknown
  | cons c cs ih => exact ih (hknown.noteCycle c)

theorem separate_cycles (l : Links) : l.Separate l.cycles :=
  Separate.foldl_noteCycle ⟨fun _ h => absurd h List.not_mem_nil, .nil⟩ _

theorem OnCycle.exists_mem_cycles (h : l.OnCycle c) : ∃ cycle ∈ l.cycles, c ∈ cycle := by
  have ⟨p, hp, _⟩ := h
  rcases exists_top_or_cycle (lt_size_of_parent? hp) with
    ⟨t, ht, htop⟩ | ⟨e, he, cycle, hcycle, hin⟩
  · exact absurd ht (h.not_reaches_top htop)
  · have hback := h.reaches_back he
    exact ⟨cycle, hcycle, ((separate_cycles l).1 cycle hcycle).mem_of_reaches hin hback⟩

/-- The search lists every cycle, and each of them once. -/
theorem areCycles_cycles (l : Links) : l.AreCycles l.cycles where
  isCycle := (separate_cycles l).1
  complete _ := OnCycle.exists_mem_cycles
  disjoint := (separate_cycles l).2

/-- Two classes lie on one cycle when one of the lists has both. -/
theorem AreCycles.onOneCycle_iff {cycles : List (List ClassIndex)} (h : l.AreCycles cycles) :
    l.Below a b ∧ l.Below b a ↔ ∃ cycle ∈ cycles, a ∈ cycle ∧ b ∈ cycle := by
  constructor
  · rintro ⟨hab, hba⟩
    have ha : l.OnCycle a := by
      obtain ⟨p, hp, hpb⟩ := hab
      exact ⟨p, hp, hpb.trans hba.reaches⟩
    obtain ⟨cycle, hcycle, hin⟩ := h.complete a ha
    exact ⟨cycle, hcycle, hin, (h.isCycle cycle hcycle).mem_of_reaches hin hab.reaches⟩
  · rintro ⟨cycle, hcycle, ha, hb⟩
    have hc := h.isCycle cycle hcycle
    exact ⟨hc.below ha hb, hc.below hb ha⟩

/-- No two of the lists are one cycle turned. -/
theorem AreCycles.nodup_map_coe {cycles : List (List ClassIndex)} (h : l.AreCycles cycles) :
    (cycles.map Cycle.ofList).Nodup := by
  rw [List.nodup_iff_pairwise_ne, List.pairwise_map]
  refine h.disjoint.imp_of_mem ?_
  intro xs ys hxs hys hdisjoint heq
  have hrot : xs ~r ys := Cycle.coe_eq_coe.1 heq
  obtain ⟨x, hx⟩ := List.exists_mem_of_ne_nil xs (h.isCycle xs hxs).ne_nil
  exact hdisjoint hx (hrot.mem_iff.1 hx)

theorem AreCycles.mem_map_coe {cycles cycles' : List (List ClassIndex)} (h : l.AreCycles cycles)
    (h' : l.AreCycles cycles') {c : Cycle ClassIndex}
    (hc : c ∈ cycles.map Cycle.ofList) : c ∈ cycles'.map Cycle.ofList := by
  obtain ⟨xs, hxs, rfl⟩ := List.mem_map.1 hc
  have hcycle := h.isCycle xs hxs
  obtain ⟨x, hx⟩ := List.exists_mem_of_ne_nil xs hcycle.ne_nil
  obtain ⟨ys, hys, hy⟩ := h'.complete x (hcycle.onCycle hx)
  exact List.mem_map.2 ⟨ys, hys, Cycle.coe_eq_coe.2 ((h'.isCycle ys hys).isRotated hcycle hy hx)⟩

/-- Turned cycles taken as one, the lists of all cycles differ in their order only. -/
theorem AreCycles.perm {cycles cycles' : List (List ClassIndex)} (h : l.AreCycles cycles)
    (h' : l.AreCycles cycles') :
    (cycles.map Cycle.ofList).Perm (cycles'.map Cycle.ofList) := by
  rw [List.perm_ext_iff_of_nodup h.nodup_map_coe h'.nodup_map_coe]
  intro c
  exact ⟨h.mem_map_coe h', h'.mem_map_coe h⟩

end CoolHierarchy.Links
