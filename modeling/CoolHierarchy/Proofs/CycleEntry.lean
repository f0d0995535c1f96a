import CoolHierarchy.Proofs.CyclePath

/-!
# Where walks enter cycles

A walk that comes to a cycle enters it at one class (`Enters`), and that class is what the search
reads the cycle off from (`enters_of_entrance?`). Going up the indices, a cycle is listed when the
walk from a class comes to it for the first time, so the lists are in the order of the lowest classes
whose walks come to their cycles.

* `exists_firsts`: the lowest class below each list, and what the list starts with.
-/

namespace CoolHierarchy.Links

variable {l : Links} {a b c e : ClassIndex} {seen xs : List ClassIndex} {n : Nat}

/-- `l.Enters c e`: of the classes that the walk from `c` comes to, `e` is the first one that is on
a cycle. -/
def Enters (l : Links) (c e : ClassIndex) : Prop :=
  ∃ n, l.climb n c = some e ∧ l.OnCycle e ∧ ∀ m < n, ∀ x, l.climb m c = some x → ¬ l.OnCycle x

/-- `l.StartsFrom c cycle`: no class below `c` has a walk that comes to the cycle, and the list
starts with the class at which the walk from `c` enters it. -/
structure StartsFrom (l : Links) (c : ClassIndex) (cycle : List ClassIndex) : Prop where
  entry : ∃ e, cycle.head? = some e ∧ l.Enters c e
  lowest : ∀ b, ∀ a ∈ cycle, l.Reaches b a → c ≤ b

/-- The cycles that the search knows of when it has come to a class. -/
def cyclesBelow (l : Links) (n : Nat) : List (List ClassIndex) :=
  (List.range n).foldl l.noteCycle []

theorem cyclesBelow_succ (l : Links) (n : Nat) :
    l.cyclesBelow (n + 1) = l.noteCycle (l.cyclesBelow n) n := by
  unfold cyclesBelow
  rw [List.range_succ, List.foldl_append]
  rfl

/-- A class adds nothing when the cycle that its walk enters is known. -/
theorem noteCycle_of_known {known : List (List ClassIndex)}
    (h : ∀ e, l.entrance? c = some e → ∃ cycle ∈ known, e ∈ cycle) :
    l.noteCycle known c = known := by
  rcases noteCycle_cases l known c with ⟨_, hsame⟩ | ⟨e, he, ⟨_, hsame⟩ | ⟨hnew, _⟩⟩
  · exact hsame
  · exact hsame
  · exact absurd (h e he) hnew

/-- A class adds the cycle that its walk enters when that cycle is new. -/
theorem noteCycle_of_new {known : List (List ClassIndex)} (he : l.entrance? c = some e)
    (hnew : ¬ ∃ cycle ∈ known, e ∈ cycle) : l.noteCycle known c = known ++ [l.cycleFrom e] := by
  rcases noteCycle_cases l known c with ⟨hnone, _⟩ | ⟨f, hf, ⟨hold, _⟩ | ⟨_, hadd⟩⟩
  · rw [he] at hnone
    cases hnone
  · rw [he] at hf
    cases hf
    exact absurd hold hnew
  · rw [he] at hf
    cases hf
    exact hadd

theorem separate_cyclesBelow (l : Links) (n : Nat) : l.Separate (l.cyclesBelow n) :=
  Separate.foldl_noteCycle ⟨fun _ h => absurd h List.not_mem_nil, .nil⟩ _

/-! ## The first class that is met twice -/

theorem climb_of_getElem?_lineage (h : (l.lineage c)[n]? = some a) : l.climb n c = some a := by
  rw [getElem?_lineage] at h
  split at h
  · exact h
  · cases h

/-- The first item that was there before parts a list into different items and a rest. -/
theorem firstRepeat?_eq_some_iff : firstRepeat? seen xs = some a ↔
    ∃ before rest, xs = before ++ a :: rest ∧ before.Nodup ∧ (∀ x ∈ before, x ∉ seen) ∧
      (a ∈ seen ∨ a ∈ before) := by
  induction xs generalizing seen with
  | nil => simp [firstRepeat?]
  | cons x xs ih =>
    by_cases hx : x ∈ seen
    · have hfirst : firstRepeat? seen (x :: xs) = some x := by simp [firstRepeat?, hx]
      rw [hfirst]
      constructor
      · intro h
        cases h
        exact ⟨[], xs, rfl, List.nodup_nil, fun _ hy => absurd hy List.not_mem_nil, .inl hx⟩
      · rintro ⟨before, rest, hsplit, -, hnew, -⟩
        cases before with
        | nil => rw [(List.cons.inj hsplit).1]
        | cons y before =>
          rw [(List.cons.inj hsplit).1] at hx
          exact absurd hx (hnew y List.mem_cons_self)
    · have hlater : firstRepeat? seen (x :: xs) = firstRepeat? (x :: seen) xs := by
        simp [firstRepeat?, hx]
      rw [hlater, ih]
      constructor
      · rintro ⟨before, rest, rfl, hnodup, hnew, hseen⟩
        refine ⟨x :: before, rest, rfl, ?_, ?_, ?_⟩
        · exact List.nodup_cons.2 ⟨fun h => hnew x h List.mem_cons_self, hnodup⟩
        · exact List.forall_mem_cons.2
            ⟨hx, fun y hy hseen => hnew y hy (List.mem_cons_of_mem x hseen)⟩
        · rcases hseen with h | h
          · rcases List.mem_cons.1 h with rfl | h
            · exact .inr List.mem_cons_self
            · exact .inl h
          · exact .inr (List.mem_cons_of_mem x h)
      · rintro ⟨before, rest, hsplit, hnodup, hnew, hseen⟩
        cases before with
        | nil =>
          rw [(List.cons.inj hsplit).1] at hx
          exact absurd (hseen.resolve_right List.not_mem_nil) hx
        | cons y before =>
          obtain ⟨rfl, rfl⟩ := List.cons.inj hsplit
          obtain ⟨hy, hnodup⟩ := List.nodup_cons.1 hnodup
          refine ⟨before, rest, rfl, hnodup, ?_, ?_⟩
          · intro z hz hseen
            rcases List.mem_cons.1 hseen with rfl | hseen
            · exact hy hz
            · exact hnew z (List.mem_cons_of_mem x hz) hseen
          · rcases hseen with h | h
            · exact .inl (List.mem_cons_of_mem x h)
            · rcases List.mem_cons.1 h with rfl | h
              · exact .inl List.mem_cons_self
              · exact .inr h

theorem reaches_of_climb_le {m : Nat} (hm : l.climb m c = some a) (hn : l.climb n c = some b)
    (hmn : m ≤ n) : l.Reaches a b := by
  obtain ⟨k, rfl⟩ := Nat.exists_eq_add_of_le hmn
  rw [climb_add, hm, Option.bind_some] at hn
  exact .of_climb hn

/-! ## The class at which a walk enters a cycle -/

theorem Enters.onCycle (h : l.Enters c e) : l.OnCycle e := by
  obtain ⟨_, _, he, _⟩ := h
  exact he

theorem Enters.reaches (h : l.Enters c e) : l.Reaches c e := by
  obtain ⟨n, hn, _⟩ := h
  exact .of_climb hn

/-- What a walk meets again first is where it enters the cycle. -/
theorem enters_of_entrance? (h : l.entrance? c = some e) : l.Enters c e := by
  obtain ⟨before, rest, hsplit, hnodup, -, hseen⟩ := firstRepeat?_eq_some_iff.1 h
  obtain ⟨lead, tail, rfl⟩ := List.append_of_mem (hseen.resolve_left List.not_mem_nil)
  obtain ⟨-, htail, hapart⟩ := List.nodup_append.1 hnodup
  have hcycle : l.IsCycle (e :: tail) := isCycle_of_lineage_eq hsplit htail
  have hclimb : ∀ m a, (lead ++ [e])[m]? = some a → l.climb m c = some a := by
    intro m a ha
    apply climb_of_getElem?_lineage
    rw [hsplit, List.append_cons lead e tail, List.append_assoc,
      List.getElem?_append_left (List.getElem?_eq_some_iff.1 ha).1, ha]
  have hend : l.climb lead.length c = some e := hclimb _ e List.getElem?_concat_length
  refine ⟨lead.length, hend, onCycle_of_entrance? h, ?_⟩
  intro m hm x hx hcyc
  have hlead : x ∈ lead := by
    have hplace : (lead ++ [e])[m]? = some lead[m] := by
      rw [List.getElem?_append_left hm, List.getElem?_eq_getElem hm]
    rw [hclimb m _ hplace] at hx
    cases hx
    exact List.getElem_mem hm
  -- The links lead on from `x` to the entry and back, so `x` would be met again as well.
  have hback : l.Reaches e x := hcyc.reaches_back (reaches_of_climb_le hx hend (Nat.le_of_lt hm))
  exact hapart x hlead x (hcycle.mem_of_reaches List.mem_cons_self hback) rfl

/-- The walk from a class that is below a cycle does not end. -/
theorem exists_entrance?_of_reaches (h : l.Reaches c e) (he : l.OnCycle e) :
    ∃ f, l.entrance? c = some f := by
  cases hentry : l.entrance? c with
  | some f => exact ⟨f, rfl⟩
  | none =>
    obtain ⟨t, ht, htop⟩ := exists_top_of_entrance?_eq_none hentry
    exact absurd (h.reaches_top ht htop) (he.not_reaches_top htop)

/-! ## Cycles in the order in which they are come to -/

/-- A walk that passes a class and comes to a cycle comes to it from that class too. -/
theorem reaches_of_onCycle (hce : l.Reaches c e) (hcf : l.Reaches c f) (hf : l.OnCycle f) :
    l.Reaches e f := by
  rcases hce.total hcf with h | h
  · exact h
  · exact hf.reaches_back h

/-- What the walks from the classes so far come to is known. -/
theorem exists_mem_cyclesBelow (hb : b < n) (hbe : l.Reaches b e) (he : l.OnCycle e) :
    ∃ cycle ∈ l.cyclesBelow n, e ∈ cycle := by
  obtain ⟨f, hf⟩ := exists_entrance?_of_reaches hbe he
  obtain ⟨cycle, hcycle, hin⟩ := exists_mem_foldl_noteCycle (List.mem_range.2 hb) hf []
  have hentry := enters_of_entrance? hf
  have hfe : l.Reaches f e := reaches_of_onCycle hentry.reaches hbe he
  exact ⟨cycle, hcycle, ((separate_cyclesBelow l n).1 cycle hcycle).mem_of_reaches hin hfe⟩

/-- A cycle that is not known yet when its entry is come to starts from the class that is next. -/
theorem startsFrom_cycleFrom (hentry : l.entrance? n = some e)
    (hnew : ¬ ∃ cycle ∈ l.cyclesBelow n, e ∈ cycle) : l.StartsFrom n (l.cycleFrom e) where
  entry := ⟨e, rfl, enters_of_entrance? hentry⟩
  lowest := by
    intro b a ha hba
    by_contra hb
    have he := onCycle_of_entrance? hentry
    have hbe : l.Reaches b e := hba.trans (he.reaches_back (reaches_of_mem_cycleFrom ha))
    exact hnew (exists_mem_cyclesBelow (Nat.lt_of_not_le hb) hbe he)

/-- The lists start from rising classes, each below its own cycle. -/
theorem exists_firsts (l : Links) (n : Nat) :
    ∃ firsts : List ClassIndex, firsts.Pairwise (· < ·) ∧ (∀ c ∈ firsts, c < n) ∧
      List.Forall₂ l.StartsFrom firsts (l.cyclesBelow n) := by
  induction n with
  | zero => exact ⟨[], .nil, fun _ h => absurd h List.not_mem_nil, .nil⟩
  | succ n ih =>
    obtain ⟨firsts, hrise, hbelow, hstarts⟩ := ih
    have hbelow' : ∀ c ∈ firsts, c < n + 1 := fun c hc => Nat.lt_succ_of_lt (hbelow c hc)
    rw [cyclesBelow_succ]
    rcases noteCycle_cases l (l.cyclesBelow n) n with ⟨_, h⟩ | ⟨e, he, ⟨_, h⟩ | ⟨hnew, h⟩⟩
    · rw [h]
      exact ⟨firsts, hrise, hbelow', hstarts⟩
    · rw [h]
      exact ⟨firsts, hrise, hbelow', hstarts⟩
    · rw [h]
      refine ⟨firsts ++ [n], ?_, ?_, ?_⟩
      · refine List.pairwise_append.2 ⟨hrise, List.pairwise_singleton _ n, ?_⟩
        intro c hc m hm
        rw [List.mem_singleton.1 hm]
        exact hbelow c hc
      · intro c hc
        rcases List.mem_append.1 hc with hc | hc
        · exact hbelow' c hc
        · rw [List.mem_singleton.1 hc]
          exact Nat.lt_succ_self n
      · exact List.rel_append hstarts (.cons (startsFrom_cycleFrom he hnew) .nil)

/-- Every known cycle was come to from a class so far. -/
theorem exists_lt_reaches_of_mem_cyclesBelow {cycle : List ClassIndex}
    (hcycle : cycle ∈ l.cyclesBelow n) (ha : a ∈ cycle) : ∃ b < n, l.Reaches b a := by
  obtain ⟨firsts, -, hbelow, hstarts⟩ := exists_firsts l n
  obtain ⟨i, hi, rfl⟩ := List.mem_iff_getElem.1 hcycle
  have hlen := hstarts.length_eq
  have hi' : i < firsts.length := hlen.symm ▸ hi
  obtain ⟨e, hhead, hentry⟩ := (hstarts.get hi' hi).entry
  have hin : e ∈ (l.cyclesBelow n)[i] := List.mem_of_head? hhead
  have hea := (((separate_cyclesBelow l n).1 _ hcycle).below hin ha).reaches
  exact ⟨firsts[i], hbelow _ (List.getElem_mem hi'), hentry.reaches.trans hea⟩

end CoolHierarchy.Links
