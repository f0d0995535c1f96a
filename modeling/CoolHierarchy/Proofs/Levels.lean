import CoolHierarchy.Proofs.Walk
import Mathlib.Data.List.Nodup

/-!
# The levels below the root

A search along child links meets the classes level by level. A class is on the level that its
number of links to the root says (`mem_level`), so the levels hold every rooted class once, and
there are no more of them than classes (`level_eq_nil`). `InLevelOrder` says what order that is,
and `inLevelOrder_flatMap_level` that the levels, one after the other, are in it.
-/

namespace CoolHierarchy.Links

variable {l : Links} {a b c p : ClassIndex} {k m n : Nat}

/-- The classes on the level that lies a number of links below the root. -/
def level (l : Links) : Nat → List ClassIndex
  | 0 => [root]
  | k + 1 => (l.level k).flatMap l.children

/-- Number of classes above a class. For a rooted class it is the number of links to the root. -/
def depth (l : Links) (c : ClassIndex) : Nat :=
  (l.ancestors c).length

/-- The order of a search level by level: the root comes first and every class after its parent,
the depth never falls, and classes of one depth are ordered by the positions of their parents and
then by registration. -/
structure InLevelOrder (l : Links) (order : List ClassIndex) : Prop where
  root_first : order.head? = some root
  parent_first : ∀ {c p}, c ∈ order → l.parent? c = some p → order.idxOf p < order.idxOf c
  depth_mono : order.Pairwise fun a b => l.depth a ≤ l.depth b
  same_depth : order.Pairwise fun a b => l.depth a = l.depth b →
    ∃ p q, l.parent? a = some p ∧ l.parent? b = some q ∧
      (order.idxOf p < order.idxOf q ∨ p = q ∧ a < b)

/-! ## Classes on a level -/

theorem mem_level : c ∈ l.level k ↔ l.climb k c = some root := by
  induction k generalizing c with
  | zero => simp [level]
  | succ k ih =>
    rw [level, List.mem_flatMap, climb, Option.bind_eq_some_iff]
    constructor
    · rintro ⟨p, hp, hc⟩
      exact ⟨p, mem_children.1 hc, ih.1 hp⟩
    · rintro ⟨p, hc, hp⟩
      exact ⟨p, ih.2 hp, mem_children.2 hc⟩

theorem exists_mem_level_iff : (∃ k, c ∈ l.level k) ↔ l.isRooted c = true := by
  rw [isRooted_iff, reaches_iff_climb]
  simp only [mem_level]

/-- Classes among which are the root and all their children are all rooted classes at least. -/
theorem mem_of_closed {xs : List ClassIndex} (hroot : root ∈ xs)
    (hclosed : ∀ p ∈ xs, l.children p ⊆ xs) (hc : l.isRooted c = true) : c ∈ xs := by
  obtain ⟨k, hk⟩ := exists_mem_level_iff.2 hc
  induction k generalizing c with
  | zero =>
    rw [List.mem_singleton.1 hk]
    exact hroot
  | succ k ih =>
    obtain ⟨p, hp, hcp⟩ := List.mem_flatMap.1 hk
    exact hclosed p (ih (exists_mem_level_iff.1 ⟨k, hp⟩) hp) hcp

theorem children_pairwise_lt (l : Links) (c : ClassIndex) : (l.children c).Pairwise (· < ·) :=
  List.pairwise_lt_range.filter _

theorem children_nodup (l : Links) (c : ClassIndex) : (l.children c).Nodup :=
  (children_pairwise_lt l c).imp Nat.ne_of_lt

theorem level_nodup (l : Links) (k : Nat) : (l.level k).Nodup := by
  induction k with
  | zero => exact List.nodup_singleton root
  | succ k ih =>
    rw [level, List.nodup_iff_pairwise_ne, List.pairwise_flatMap]
    -- Siblings differ, and a class below two parents would have both of them as its parent.
    refine ⟨fun p _ => children_nodup l p, ih.imp ?_⟩
    rintro p q hpq c hc d hd rfl
    have hparent := mem_children.1 hd
    rw [mem_children.1 hc] at hparent
    exact hpq (Option.some.inj hparent)

/-! ## How far down the levels go -/

section Top

variable (htop : l.parent? root = none)
include htop

/-- A class is on one level only. -/
theorem eq_of_mem_level (hk : c ∈ l.level k) (hm : c ∈ l.level m) : k = m :=
  climb_top_unique (mem_level.1 hk) (mem_level.1 hm) htop

/-- No level lies deeper than there are classes. -/
theorem le_size_of_mem_level (hk : c ∈ l.level k) : k ≤ l.size := by
  cases k with
  | zero => exact Nat.zero_le _
  | succ k =>
    obtain ⟨m, hm, hcm⟩ := exists_climb_le_size (mem_level.1 hk)
    have hkm := eq_of_mem_level htop hk (mem_level.2 hcm)
    omega

/-- On a level the walk has as many links as the level says. -/
theorem length_lineage_of_mem_level (hk : c ∈ l.level k) : (l.lineage c).length = k + 1 := by
  have hroot : (l.lineage c)[k]? = some root := by
    rw [getElem?_lineage, if_pos (le_size_of_mem_level htop hk), mem_level.1 hk]
  have hend : (l.lineage c)[k + 1]? = none := by
    rw [getElem?_lineage, climb_eq_none_of_top (mem_level.1 hk) htop (Nat.lt_succ_self k)]
    exact ite_self none
  have hlt := (List.getElem?_eq_some_iff.1 hroot).1
  have hge := List.getElem?_eq_none_iff.1 hend
  omega

theorem depth_of_mem_level (hk : c ∈ l.level k) : l.depth c = k := by
  have hlen := length_lineage_of_mem_level htop hk
  rw [lineage, List.length_cons] at hlen
  exact Nat.succ.inj hlen

/-- The classes on the walk of a rooted class are different, so there are enough of them for all
levels above. -/
theorem lt_size_of_mem_level (hroot : root < l.size) (hk : c ∈ l.level k) : k < l.size := by
  have hc : l.Reaches c root := .of_climb (mem_level.1 hk)
  have hsub : l.lineage c ⊆ List.range l.size := by
    intro a ha
    rw [List.mem_range]
    rcases ((mem_lineage.1 ha).reaches_top hc htop).eq_or_below with rfl | ⟨p, hp, _⟩
    · exact hroot
    · exact lt_size_of_parent? hp
  have hle := (lineage_nodup hc htop).length_le_of_subset hsub
  rw [length_lineage_of_mem_level htop hk, List.length_range] at hle
  exact hle

theorem level_eq_nil (hroot : root < l.size) (hk : l.size ≤ k) : l.level k = [] := by
  rw [List.eq_nil_iff_forall_not_mem]
  intro c hc
  exact absurd (lt_size_of_mem_level htop hroot hc) (Nat.not_lt_of_ge hk)

/-! ## The levels one after the other -/

theorem flatMap_level_nodup (n : Nat) : ((List.range n).flatMap l.level).Nodup := by
  rw [List.nodup_iff_pairwise_ne, List.pairwise_flatMap]
  refine ⟨fun k _ => level_nodup l k, List.pairwise_lt_range.imp ?_⟩
  rintro k m hkm c hc d hd rfl
  exact Nat.ne_of_lt hkm (eq_of_mem_level htop hc hd)

theorem mem_flatMap_level (hroot : root < l.size) :
    c ∈ (List.range l.size).flatMap l.level ↔ l.isRooted c = true := by
  rw [List.mem_flatMap, ← exists_mem_level_iff]
  constructor
  · rintro ⟨k, _, hk⟩
    exact ⟨k, hk⟩
  · rintro ⟨k, hk⟩
    exact ⟨k, List.mem_range.2 (lt_size_of_mem_level htop hroot hk), hk⟩

/-- The levels begin with the root, and the children of the classes on them, in that order, are all
the rest. -/
theorem flatMap_level_eq_cons (hroot : root < l.size) :
    (List.range l.size).flatMap l.level =
      root :: ((List.range l.size).flatMap l.level).flatMap l.children := by
  have hlast : l.level l.size = [] := level_eq_nil htop hroot (Nat.le_refl _)
  calc (List.range l.size).flatMap l.level
      = (List.range (l.size + 1)).flatMap l.level := by
        rw [List.range_succ, List.flatMap_append, List.flatMap_singleton, hlast, List.append_nil]
    _ = root :: (List.range l.size).flatMap fun k => l.level (k + 1) := by
        rw [List.range_succ_eq_map, List.flatMap_cons, List.flatMap_map]
        rfl
    _ = root :: ((List.range l.size).flatMap l.level).flatMap l.children := by
        rw [List.flatMap_assoc]
        rfl

theorem depth_mono_flatMap_level (n : Nat) :
    ((List.range n).flatMap l.level).Pairwise fun a b => l.depth a ≤ l.depth b := by
  rw [List.pairwise_flatMap]
  constructor
  · intro k _
    refine List.pairwise_of_forall_mem_list ?_
    intro a ha b hb
    rw [depth_of_mem_level htop ha, depth_of_mem_level htop hb]
  · refine List.pairwise_lt_range.imp ?_
    intro k m hkm a ha b hb
    rw [depth_of_mem_level htop ha, depth_of_mem_level htop hb]
    exact Nat.le_of_lt hkm

end Top

/-- In a list without repetition the positions rise. -/
theorem pairwise_idxOf_lt {xs : List ClassIndex} (h : xs.Nodup) :
    xs.Pairwise fun a b => xs.idxOf a < xs.idxOf b := by
  rw [List.pairwise_iff_getElem]
  intro i j hi hj hij
  rw [h.idxOf_getElem i hi, h.idxOf_getElem j hj]
  exact hij

/-- In a list that a relation orders, what may not come after another item comes before it. -/
theorem idxOf_lt_of_pairwise {xs : List ClassIndex} {R : ClassIndex → ClassIndex → Prop}
    (h : xs.Pairwise R) (ha : a ∈ xs) (hb : b ∈ xs) (hne : a ≠ b) (hnot : ¬ R b a) :
    xs.idxOf a < xs.idxOf b := by
  have hla := List.idxOf_lt_length_of_mem ha
  have hlb := List.idxOf_lt_length_of_mem hb
  rcases Nat.lt_trichotomy (xs.idxOf a) (xs.idxOf b) with hlt | heq | hgt
  · exact hlt
  · exact absurd ((List.idxOf_inj ha).1 heq) hne
  · have hrel := List.pairwise_iff_getElem.1 h _ _ hlb hla hgt
    rw [List.getElem_idxOf hla, List.getElem_idxOf hlb] at hrel
    exact absurd hrel hnot

theorem level_sublist (hkn : k < n) :
    (l.level k).Sublist ((List.range n).flatMap l.level) := by
  rw [List.flatMap_def]
  exact List.sublist_flatten_of_mem (List.mem_map_of_mem (List.mem_range.2 hkn))

/-- Siblings on a level come in the order of registration, and other classes in the order of their
parents. -/
theorem level_pairwise (htop : l.parent? root = none) (hkn : k < n) :
    (l.level k).Pairwise fun a b => ∃ p q, l.parent? a = some p ∧ l.parent? b = some q ∧
      (((List.range n).flatMap l.level).idxOf p < ((List.range n).flatMap l.level).idxOf q ∨
        p = q ∧ a < b) := by
  cases k with
  | zero => exact List.pairwise_singleton _ root
  | succ k =>
    rw [level, List.pairwise_flatMap]
    constructor
    · intro p _
      refine (children_pairwise_lt l p).imp_of_mem ?_
      intro a b ha hb hab
      exact ⟨p, p, mem_children.1 ha, mem_children.1 hb, .inr ⟨rfl, hab⟩⟩
    · have hrise := pairwise_idxOf_lt (flatMap_level_nodup htop n)
      refine (hrise.sublist (level_sublist (Nat.lt_of_succ_lt hkn))).imp ?_
      intro p q hpq a ha b hb
      exact ⟨p, q, mem_children.1 ha, mem_children.1 hb, .inl hpq⟩

/-- The parent of a class on some level is on the level above, so it comes before the class. -/
theorem idxOf_parent_lt (htop : l.parent? root = none)
    (hc : c ∈ (List.range n).flatMap l.level) (hp : l.parent? c = some p) :
    ((List.range n).flatMap l.level).idxOf p < ((List.range n).flatMap l.level).idxOf c := by
  obtain ⟨k, hkn, hk⟩ := List.mem_flatMap.1 hc
  cases k with
  | zero =>
    cases List.mem_singleton.1 hk
    rw [htop] at hp
    cases hp
  | succ k =>
    have hpk : p ∈ l.level k := by
      rw [mem_level, ← climb_succ_of_parent? hp]
      exact mem_level.1 hk
    have hpn : p ∈ (List.range n).flatMap l.level :=
      List.mem_flatMap.2 ⟨k, List.mem_range.2 (Nat.lt_of_succ_lt (List.mem_range.1 hkn)), hpk⟩
    have hdepth : l.depth p < l.depth c := by
      rw [depth_of_mem_level htop hpk, depth_of_mem_level htop hk]
      exact Nat.lt_succ_self k
    -- The depth never falls, so the class can neither be its parent nor come before it.
    refine idxOf_lt_of_pairwise (depth_mono_flatMap_level htop n) hpn hc ?_ (Nat.not_le.2 hdepth)
    rintro rfl
    exact Nat.lt_irrefl _ hdepth

/-- The levels one after the other are in level order. -/
theorem inLevelOrder_flatMap_level (htop : l.parent? root = none) (hn : 0 < n) :
    l.InLevelOrder ((List.range n).flatMap l.level) where
  root_first := by
    obtain ⟨n, rfl⟩ := Nat.exists_eq_succ_of_ne_zero (Nat.ne_of_gt hn)
    rw [List.range_succ_eq_map, List.flatMap_cons]
    rfl
  parent_first := idxOf_parent_lt htop
  depth_mono := depth_mono_flatMap_level htop n
  same_depth := by
    rw [List.pairwise_flatMap]
    constructor
    · intro k hk
      refine (level_pairwise htop (List.mem_range.1 hk)).imp ?_
      intro a b h _
      exact h
    · refine List.pairwise_lt_range.imp ?_
      intro k m hkm a ha b hb heq
      rw [depth_of_mem_level htop ha, depth_of_mem_level htop hb] at heq
      exact absurd heq (Nat.ne_of_lt hkm)

end CoolHierarchy.Links
