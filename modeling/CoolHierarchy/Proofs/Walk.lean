import CoolHierarchy.Hierarchy.Links
import Mathlib.Data.Finset.Card
import Mathlib.Data.List.Nodup

/-!
# What the cut walk meets

`Links.walk` stops after as many steps as there are classes. Here the walk without a cut is the
relation `Reaches`, and the cut turns out to lose nothing.

* `mem_lineage`, `mem_ancestors`: the cut walk meets exactly the classes above.
* `exists_top_of_nodup`: a walk that meets no class twice comes to a class without a parent.
* `OnCycle.of_reaches`: who is on a cycle stays on it, and never comes to a class without a parent.
* `lineage_of_parent?`: below a class without a parent the walk of a child extends the one of its
  parent.
-/

namespace CoolHierarchy.Links

variable {l : Links} {a b c p : ClassIndex} {m n : Nat}

/-! ## Reachability -/

/-- `l.Reaches c a`: zero or more parent links lead from `c` to `a`. -/
inductive Reaches (l : Links) : ClassIndex → ClassIndex → Prop
  | refl (c : ClassIndex) : Reaches l c c
  | step {c p a : ClassIndex} : l.parent? c = some p → Reaches l p a → Reaches l c a

/-- `l.Below c a`: one or more parent links lead from `c` to `a`. -/
def Below (l : Links) (c a : ClassIndex) : Prop :=
  ∃ p, l.parent? c = some p ∧ l.Reaches p a

/-- The links lead from a class back to itself. -/
def OnCycle (l : Links) (c : ClassIndex) : Prop := l.Below c c

namespace Reaches

theorem of_parent? (h : l.parent? c = some p) : l.Reaches c p :=
  .step h (.refl p)

theorem trans (h : l.Reaches c a) (h' : l.Reaches a b) : l.Reaches c b := by
  induction h with
  | refl => exact h'
  | step hp _ ih => exact .step hp (ih h')

theorem eq_or_below (h : l.Reaches c a) : a = c ∨ l.Below c a := by
  cases h with
  | refl => exact .inl rfl
  | step hp h => exact .inr ⟨_, hp, h⟩

/-- A class has one parent at most, so of two classes above it one is above the other. -/
theorem total (h : l.Reaches c a) (h' : l.Reaches c b) : l.Reaches a b ∨ l.Reaches b a := by
  -- Both walks set out with the only link of `c` and stay together until one of them ends.
  induction h with
  | refl => exact .inl h'
  | step hp h ih =>
    cases h' with
    | refl => exact .inr (.step hp h)
    | step hp' h' =>
      rw [hp] at hp'
      cases hp'
      exact ih h'

/-- Nothing is above a class without a parent. -/
theorem eq_of_top (h : l.Reaches c a) (htop : l.parent? c = none) : a = c := by
  rcases h.eq_or_below with rfl | ⟨p, hp, _⟩
  · rfl
  · rw [htop] at hp
    cases hp

/-- A walk that comes to a class without a parent passes all that is above its start on the way. -/
theorem reaches_top (h : l.Reaches c a) (h' : l.Reaches c b) (htop : l.parent? b = none) :
    l.Reaches a b := by
  rcases h.total h' with hab | hba
  · exact hab
  · rw [hba.eq_of_top htop]
    exact .refl b

/-- What passes from a class to its parent passes to all that is above the class. -/
theorem closed {P : ClassIndex → Prop} (h : l.Reaches c a)
    (hstep : ∀ {c p}, P c → l.parent? c = some p → P p) (hc : P c) : P a := by
  induction h with
  | refl => exact hc
  | step hp _ ih => exact ih (hstep hc hp)

end Reaches

theorem Below.reaches (h : l.Below c a) : l.Reaches c a := by
  obtain ⟨p, hp, h⟩ := h
  exact .step hp h

/-- The last link of a walk comes from a child of where it leads. -/
theorem Below.exists_child (h : l.Below c a) : ∃ d, l.Reaches c d ∧ l.parent? d = some a := by
  obtain ⟨p, hp, h⟩ := h
  induction h generalizing c with
  | refl => exact ⟨c, .refl c, hp⟩
  | step hq _ ih =>
    obtain ⟨d, hd, hda⟩ := ih hq
    exact ⟨d, .step hp hd, hda⟩

theorem OnCycle.parent? (h : l.OnCycle c) (hp : l.parent? c = some p) : l.OnCycle p := by
  obtain ⟨q, hq, hqc⟩ := h
  rw [hp] at hq
  cases hq
  rcases hqc.eq_or_below with rfl | ⟨r, hr, hrc⟩
  · exact ⟨c, hp, .refl c⟩
  · exact ⟨r, hr, hrc.trans (.of_parent? hp)⟩

/-- Above a class on a cycle there is nothing but the cycle. -/
theorem OnCycle.of_reaches (h : l.OnCycle c) (hca : l.Reaches c a) : l.OnCycle a :=
  hca.closed OnCycle.parent? h

/-- From whatever is above a class on a cycle the links lead back to the class. -/
theorem OnCycle.reaches_back (h : l.OnCycle c) (hca : l.Reaches c a) : l.Reaches a c := by
  induction hca with
  | refl c => exact .refl c
  | step hp _ ih =>
    have ⟨q, hq, hqc⟩ := h
    rw [hp] at hq
    cases hq
    exact (ih (h.parent? hp)).trans hqc

theorem not_onCycle_of_top (htop : l.parent? c = none) : ¬ l.OnCycle c := by
  rintro ⟨p, hp, _⟩
  rw [htop] at hp
  cases hp

/-- No walk leads from a cycle to a class without a parent. -/
theorem OnCycle.not_reaches_top (h : l.OnCycle c) (htop : l.parent? a = none) :
    ¬ l.Reaches c a :=
  fun hca => not_onCycle_of_top htop (h.of_reaches hca)

/-! ## Counting links -/

/-- The class that lies a number of links above a class. -/
def climb (l : Links) : Nat → ClassIndex → Option ClassIndex
  | 0, c => some c
  | n + 1, c => (l.parent? c).bind (l.climb n)

@[simp] theorem climb_zero (l : Links) (c : ClassIndex) : l.climb 0 c = some c := rfl

theorem climb_succ_of_parent? (h : l.parent? c = some p) (n : Nat) :
    l.climb (n + 1) c = l.climb n p := by
  rw [climb, h, Option.bind_some]

theorem climb_succ_of_top (h : l.parent? c = none) (n : Nat) : l.climb (n + 1) c = none := by
  rw [climb, h, Option.bind_none]

theorem climb_add (l : Links) (m n : Nat) (c : ClassIndex) :
    l.climb (m + n) c = (l.climb m c).bind (l.climb n) := by
  induction m generalizing c with
  | zero => rw [Nat.zero_add, climb_zero, Option.bind_some]
  | succ m ih =>
    cases hp : l.parent? c with
    | none => rw [Nat.succ_add, climb_succ_of_top hp, climb_succ_of_top hp, Option.bind_none]
    | some p => rw [Nat.succ_add, climb_succ_of_parent? hp, climb_succ_of_parent? hp, ih]

theorem Reaches.of_climb (h : l.climb n c = some a) : l.Reaches c a := by
  induction n generalizing c with
  | zero =>
    cases h
    exact .refl _
  | succ n ih =>
    obtain ⟨p, hp, h⟩ := Option.bind_eq_some_iff.1 h
    exact .step hp (ih h)

theorem reaches_iff_climb : l.Reaches c a ↔ ∃ n, l.climb n c = some a := by
  constructor
  · intro h
    induction h with
    | refl c => exact ⟨0, rfl⟩
    | step hp _ ih =>
      obtain ⟨n, hn⟩ := ih
      exact ⟨n + 1, by rw [climb_succ_of_parent? hp, hn]⟩
  · rintro ⟨n, h⟩
    exact .of_climb h

theorem below_iff_climb : l.Below c a ↔ ∃ n, l.climb (n + 1) c = some a := by
  constructor
  · rintro ⟨p, hp, h⟩
    obtain ⟨n, hn⟩ := reaches_iff_climb.1 h
    exact ⟨n, by rw [climb_succ_of_parent? hp, hn]⟩
  · rintro ⟨n, h⟩
    obtain ⟨p, hp, h⟩ := Option.bind_eq_some_iff.1 h
    exact ⟨p, hp, .of_climb h⟩

/-- Every class that a climb passes has a parent, so it is one of the classes. -/
theorem exists_climb_lt_size (h : l.climb n c = some a) (hm : m < n) :
    ∃ d, l.climb m c = some d ∧ d < l.size := by
  obtain ⟨k, rfl⟩ : ∃ k, n = m + (k + 1) := ⟨n - m - 1, by omega⟩
  rw [climb_add] at h
  obtain ⟨d, hd, h⟩ := Option.bind_eq_some_iff.1 h
  obtain ⟨p, hp, _⟩ := Option.bind_eq_some_iff.1 h
  exact ⟨d, hd, lt_size_of_parent? hp⟩

/-- A climb that passes a class twice can leave out what lies between. -/
theorem climb_shortcut {i j : Nat} (hij : l.climb i c = l.climb j c) (hi : i < j) (hj : j ≤ n)
    (h : l.climb n c = some a) : l.climb (n - (j - i)) c = some a := by
  have hn : n = j + (n - j) := by omega
  have hn' : n - (j - i) = i + (n - j) := by omega
  rw [hn, climb_add] at h
  rw [hn', climb_add, hij, h]

/-- A climb with more links than there are classes passes one of them twice. -/
theorem exists_climb_eq (hn : l.size < n) (h : l.climb n c = some a) :
    ∃ i j, i < j ∧ j < n ∧ l.climb i c = l.climb j c := by
  -- All but the last of the classes that the climb passes have parents, so there are more places
  -- than classes for them to be different.
  let passed (i : Nat) : ClassIndex := (l.climb i c).getD 0
  have hcard : (Finset.range l.size).card < (Finset.range n).card := by simpa using hn
  have hmaps : Set.MapsTo passed (Finset.range n) (Finset.range l.size) := by
    intro i hi
    obtain ⟨d, hd, hlt⟩ := exists_climb_lt_size h (by simpa using hi)
    simpa [passed, hd] using hlt
  obtain ⟨i, hi, j, hj, hne, heq⟩ :=
    Finset.exists_ne_map_eq_of_card_lt_of_maps_to hcard hmaps
  obtain ⟨d, hd, _⟩ := exists_climb_lt_size h (Finset.mem_range.1 hi)
  obtain ⟨e, he, _⟩ := exists_climb_lt_size h (Finset.mem_range.1 hj)
  have hde : d = e := by simpa [passed, hd, he] using heq
  subst hde
  rcases Nat.lt_or_gt_of_ne hne with hlt | hgt
  · exact ⟨i, j, hlt, Finset.mem_range.1 hj, by rw [hd, he]⟩
  · exact ⟨j, i, hgt, Finset.mem_range.1 hi, by rw [hd, he]⟩

/-- What one or more links lead to, no more links than there are classes lead to. -/
theorem exists_climb_le_size (h : l.climb (n + 1) c = some a) :
    ∃ m < l.size, l.climb (m + 1) c = some a := by
  -- A climb that is too long loses what lies between two visits of one class, again and again.
  induction n using Nat.strongRecOn with
  | ind n ih =>
    rcases Nat.lt_or_ge n l.size with hn | hn
    · exact ⟨n, hn, h⟩
    · obtain ⟨i, j, hij, hj, heq⟩ := exists_climb_eq (Nat.lt_succ_of_le hn) h
      have hshort := climb_shortcut heq hij (Nat.le_of_lt hj) h
      have hsub : n + 1 - (j - i) = (n - (j - i)) + 1 := by omega
      rw [hsub] at hshort
      exact ih (n - (j - i)) (by omega) hshort

/-! ## The cut walk -/

theorem walk_none (l : Links) (n : Nat) : l.walk n none = [] := by
  cases n with
  | zero => rfl
  | succ n => rfl

theorem getElem?_walk (l : Links) (n : Nat) (o : Option ClassIndex) (i : Nat) :
    (l.walk n o)[i]? = if i < n then o.bind (l.climb i) else none := by
  induction n generalizing o i with
  | zero => simp [walk]
  | succ n ih =>
    cases o with
    | none => simp [walk]
    | some c =>
      cases i with
      | zero => simp [walk]
      | succ i => simp [walk, ih, climb]

theorem lineage_eq_walk (l : Links) (c : ClassIndex) :
    l.lineage c = l.walk (l.size + 1) (some c) := rfl

theorem getElem?_lineage (l : Links) (c : ClassIndex) (i : Nat) :
    (l.lineage c)[i]? = if i ≤ l.size then l.climb i c else none := by
  rw [lineage_eq_walk, getElem?_walk, Option.bind_some]
  simp only [Nat.lt_succ_iff]

/-- The cut walk meets every class above a class, and no other. -/
theorem mem_ancestors : a ∈ l.ancestors c ↔ l.Below c a := by
  rw [List.mem_iff_getElem?, below_iff_climb]
  constructor
  · rintro ⟨i, hi⟩
    rw [ancestors, getElem?_walk] at hi
    split at hi
    · exact ⟨i, hi⟩
    · cases hi
  · rintro ⟨n, hn⟩
    -- The class may lie beyond the cut of this climb, but it lies on a shorter one as well.
    obtain ⟨i, hi, h⟩ := exists_climb_le_size hn
    refine ⟨i, ?_⟩
    rw [ancestors, getElem?_walk, if_pos hi]
    exact h

theorem mem_lineage : a ∈ l.lineage c ↔ l.Reaches c a := by
  rw [lineage, List.mem_cons, mem_ancestors]
  constructor
  · rintro (rfl | h)
    · exact .refl a
    · exact h.reaches
  · exact Reaches.eq_or_below

/-- What the walk meets later is above what it meets earlier. -/
theorem reaches_of_lineage_eq_append {before rest : List ClassIndex}
    (h : l.lineage c = before ++ a :: rest) (hb : b ∈ a :: rest) : l.Reaches a b := by
  obtain ⟨i, hi⟩ := List.mem_iff_getElem?.1 hb
  have ha : (l.lineage c)[before.length]? = some a := by simp [h]
  have hb : (l.lineage c)[before.length + i]? = some b := by
    rw [h, List.getElem?_append_right (Nat.le_add_right _ _), Nat.add_sub_cancel_left, hi]
  rw [getElem?_lineage] at ha hb
  split at hb
  · rw [if_pos (by omega)] at ha
    rw [climb_add, ha, Option.bind_some] at hb
    exact .of_climb hb
  · cases hb

theorem isRooted_iff : l.isRooted c = true ↔ l.Reaches c root := by
  rw [isRooted, List.contains_iff_mem, mem_lineage]

/-! ## Walks that end and walks that repeat -/

theorem exists_top_of_climb_none (h : l.climb n c = none) :
    ∃ t, l.Reaches c t ∧ l.parent? t = none := by
  induction n generalizing c with
  | zero => cases h
  | succ n ih =>
    cases hp : l.parent? c with
    | none => exact ⟨c, .refl c, hp⟩
    | some p =>
      rw [climb_succ_of_parent? hp] at h
      obtain ⟨t, ht, htop⟩ := ih h
      exact ⟨t, .step hp ht, htop⟩

/-- A class that is met again is on a cycle. -/
theorem onCycle_of_climb_eq {i j : Nat} (hi : l.climb i c = some a) (hj : l.climb j c = some a)
    (hij : i < j) : l.OnCycle a := by
  obtain ⟨k, rfl⟩ : ∃ k, j = i + (k + 1) := ⟨j - i - 1, by omega⟩
  rw [climb_add, hi, Option.bind_some] at hj
  exact below_iff_climb.2 ⟨k, hj⟩

/-- A walk without repetition comes to a class without a parent. -/
theorem exists_top_of_nodup (h : (l.lineage c).Nodup) : ∃ t, l.Reaches c t ∧ l.parent? t = none := by
  cases hn : l.climb (l.size + 1) c with
  | none => exact exists_top_of_climb_none hn
  | some a =>
    obtain ⟨i, j, hij, hj, heq⟩ := exists_climb_eq (Nat.lt_succ_self l.size) hn
    obtain ⟨d, hd, _⟩ := exists_climb_lt_size hn hj
    have hi' : (l.lineage c)[i]? = some d := by
      rw [getElem?_lineage, if_pos (by omega), heq, hd]
    have hj' : (l.lineage c)[j]? = some d := by
      rw [getElem?_lineage, if_pos (by omega), hd]
    have hlen : i < (l.lineage c).length := (List.getElem?_eq_some_iff.1 hi').1
    exact absurd ((List.getElem?_inj hlen h).1 (hi'.trans hj'.symm)) (Nat.ne_of_lt hij)

/-! ## Walks below a class without a parent -/

theorem lineage_of_top (htop : l.parent? c = none) : l.lineage c = [c] := by
  unfold lineage ancestors
  rw [htop, walk_none]

/-- Only one number of links leads from a class to one without a parent. -/
theorem climb_top_unique (hm : l.climb m c = some a) (hn : l.climb n c = some a)
    (htop : l.parent? a = none) : m = n := by
  rcases Nat.lt_trichotomy m n with hlt | heq | hgt
  · exact absurd (onCycle_of_climb_eq hm hn hlt) (not_onCycle_of_top htop)
  · exact heq
  · exact absurd (onCycle_of_climb_eq hn hm hgt) (not_onCycle_of_top htop)

/-- A walk that comes to a class without a parent meets no class twice. -/
theorem lineage_nodup (h : l.Reaches c a) (htop : l.parent? a = none) : (l.lineage c).Nodup := by
  rw [List.nodup_iff_getElem?_ne_getElem?]
  intro i j hij hj heq
  have hd := List.getElem?_eq_getElem hj
  rw [hd] at heq
  rw [getElem?_lineage] at heq hd
  split at heq
  · split at hd
    · -- The class met twice is on a cycle, and from a cycle the walk never comes to `a`.
      have hcyc := onCycle_of_climb_eq heq hd hij
      exact hcyc.not_reaches_top htop ((Reaches.of_climb hd).reaches_top h htop)
    · cases hd
  · cases heq

theorem climb_eq_none_of_top (h : l.climb m c = some a) (htop : l.parent? a = none) (hmn : m < n) :
    l.climb n c = none := by
  obtain ⟨k, rfl⟩ : ∃ k, n = m + (k + 1) := ⟨n - m - 1, by omega⟩
  rw [climb_add, h, Option.bind_some, climb_succ_of_top htop]

/-- No more links than there are classes lead to a class without a parent. -/
theorem climb_eq_none_of_size_lt (h : l.Reaches c a) (htop : l.parent? a = none)
    (hn : l.size < n) : l.climb n c = none := by
  obtain ⟨m, hm⟩ := reaches_iff_climb.1 h
  cases m with
  | zero => exact climb_eq_none_of_top hm htop (Nat.zero_lt_of_lt hn)
  | succ m =>
    obtain ⟨k, hk, hck⟩ := exists_climb_le_size hm
    exact climb_eq_none_of_top hck htop (Nat.lt_of_le_of_lt hk hn)

/-- Fewer links than there are classes lead from a parent to a class without one. -/
theorem climb_size_eq_none (hp : l.parent? c = some p) (h : l.Reaches p a)
    (htop : l.parent? a = none) : l.climb l.size p = none := by
  obtain ⟨n, hn⟩ := reaches_iff_climb.1 h
  have hc : l.climb (n + 1) c = some a := by rw [climb_succ_of_parent? hp, hn]
  obtain ⟨m, hm, hcm⟩ := exists_climb_le_size hc
  have hmn := climb_top_unique hcm hc htop
  exact climb_eq_none_of_top hn htop (by omega)

/-- Below a class without a parent the walk of a class goes on as the walk of its parent: the cut
falls behind the end of both. -/
theorem lineage_of_parent? (hp : l.parent? c = some p) (h : l.Reaches p a)
    (htop : l.parent? a = none) : l.lineage c = c :: l.lineage p := by
  have hend := climb_size_eq_none hp h htop
  -- The two walks could differ in their last place only, and there both have ended.
  have hrest : l.walk l.size (some p) = l.lineage p := by
    apply List.ext_getElem?
    intro i
    rw [getElem?_walk, getElem?_lineage, Option.bind_some]
    rcases Nat.lt_trichotomy i l.size with hlt | rfl | hgt
    · rw [if_pos hlt, if_pos (Nat.le_of_lt hlt)]
    · rw [if_neg (Nat.lt_irrefl _), if_pos (Nat.le_refl _), hend]
    · rw [if_neg (by omega), if_neg (by omega)]
  rw [lineage, ancestors, hp, hrest]

/-- A walk that comes to a class without a parent is not cut: more steps lead no further. -/
theorem walk_eq_ancestors (h : l.Reaches c a) (htop : l.parent? a = none) (hn : l.size ≤ n) :
    l.walk n (l.parent? c) = l.ancestors c := by
  apply List.ext_getElem?
  intro i
  rw [ancestors, getElem?_walk, getElem?_walk]
  rcases Nat.lt_or_ge i l.size with hi | hi
  · rw [if_pos (Nat.lt_of_lt_of_le hi hn), if_pos hi]
  · have hend : (l.parent? c).bind (l.climb i) = none :=
      climb_eq_none_of_size_lt h htop (Nat.lt_succ_of_le hi)
    rw [hend, ite_self, ite_self]

/-- A walk that comes to a class without a parent ends with it. -/
theorem getLast?_lineage (h : l.Reaches c a) (htop : l.parent? a = none) :
    (l.lineage c).getLast? = some a := by
  induction h with
  | refl c =>
    rw [lineage_of_top htop]
    rfl
  | step hp h ih =>
    rw [lineage_of_parent? hp h htop, List.getLast?_cons, ih htop, Option.getD_some]

/-- Each class on a walk is the parent of the one before it. -/
theorem isChain_walk (l : Links) (n : Nat) (o : Option ClassIndex) :
    (l.walk n o).IsChain fun d p => l.parent? d = some p := by
  induction n generalizing o with
  | zero => exact .nil
  | succ n ih =>
    cases o with
    | none => exact .nil
    | some c =>
      have hrest := ih (l.parent? c)
      rw [walk]
      cases hp : l.parent? c with
      | none =>
        rw [walk_none]
        exact .singleton c
      | some p =>
        rw [hp] at hrest
        cases n with
        | zero => exact .singleton c
        | succ n => exact .cons_cons hp hrest

end CoolHierarchy.Links
