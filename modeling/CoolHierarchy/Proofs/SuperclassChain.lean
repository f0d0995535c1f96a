import CoolHierarchy.Proofs.Conformance
import CoolHierarchy.Proofs.CyclePath

/-!
# What lies above a class

The walk from a class is cut after as many steps as there are classes. A walk that runs into a
cycle takes all of these steps, any other one comes to its end before (`isCutWalk_ancestors`). The
chain of superclasses stops at the first repetition, and yet it has every class that the links lead
to (`isSuperclassChain_superclasses`): what is met next is met again, so nothing new can follow.

* `superclasses_exact`: the walk, the chain and subtyping tell the same, and subtyping needs no rule
  of its own for sealed classes.
-/

namespace CoolHierarchy

namespace Links

variable {l : Links} {a c e t : ClassIndex} {chain : List ClassIndex}

/-- `walk` is what lies above a class, cut: its items are those that the links lead to, in their
order, and all that lies above is among them. It has as many items as there are classes when the
links lead into a cycle, and else it ends with a class without a parent. -/
structure IsCutWalk (l : Links) (c : ClassIndex) (walk : List ClassIndex) : Prop where
  item : ∀ i < l.size, walk[i]? = l.climb (i + 1) c
  mem_iff : ∀ a, a ∈ walk ↔ l.Below c a
  length_of_cycle : (∃ e, l.Reaches c e ∧ l.OnCycle e) → walk.length = l.size
  ends : (¬ ∃ e, l.Reaches c e ∧ l.OnCycle e) →
    ∃ t, (c :: walk).getLast? = some t ∧ l.parent? t = none

/-- `chain` lists every other class that the links lead to, once and in the order of the walk. -/
structure IsSuperclassChain (l : Links) (c : ClassIndex) (chain : List ClassIndex) : Prop where
  begins : chain <+: l.ancestors c
  nodup : chain.Nodup
  mem_iff : ∀ a, a ∈ chain ↔ a ≠ c ∧ l.Reaches c a

/-! ## The cut walk -/

theorem getElem?_ancestors (l : Links) (c : ClassIndex) (i : Nat) :
    (l.ancestors c)[i]? = if i < l.size then l.climb (i + 1) c else none := by
  rw [ancestors, getElem?_walk]
  rfl

/-- Links lead on and on, or to a class without a parent. -/
theorem exists_top_or_onCycle (l : Links) (c : ClassIndex) :
    (∃ t, l.Reaches c t ∧ l.parent? t = none) ∨ ∃ e, l.Reaches c e ∧ l.OnCycle e := by
  cases h : l.climb (l.size + 1) c with
  | none => exact .inl (exists_top_of_climb_none h)
  | some a =>
    obtain ⟨i, j, hij, hj, heq⟩ := exists_climb_eq (Nat.lt_succ_self l.size) h
    obtain ⟨e, he, _⟩ := exists_climb_lt_size h hj
    exact .inr ⟨e, .of_climb he, onCycle_of_climb_eq (heq.trans he) he hij⟩

/-- A walk into a cycle is cut, never ended. -/
theorem length_ancestors_of_onCycle (hce : l.Reaches c e) (he : l.OnCycle e) :
    (l.ancestors c).length = l.size := by
  refine Nat.le_antisymm (length_walk_le l _ _) (Nat.le_of_not_lt fun hshort => ?_)
  have hend : (l.ancestors c)[(l.ancestors c).length]? = none := List.getElem?_length _
  rw [getElem?_ancestors, if_pos hshort] at hend
  obtain ⟨t, ht, htop⟩ := exists_top_of_climb_none hend
  exact he.not_reaches_top htop (hce.reaches_top ht htop)

theorem isCutWalk_ancestors (l : Links) (c : ClassIndex) : l.IsCutWalk c (l.ancestors c) where
  item i hi := by rw [getElem?_ancestors, if_pos hi]
  mem_iff _ := mem_ancestors
  length_of_cycle := fun ⟨_, hce, he⟩ => length_ancestors_of_onCycle hce he
  ends hno := by
    obtain ⟨t, ht, htop⟩ := (exists_top_or_onCycle l c).resolve_right hno
    exact ⟨t, getLast?_lineage ht htop, htop⟩

/-! ## The chain of superclasses -/

/-- Up to its first repetition a walk has all that the links lead to. -/
theorem mem_cycleFrom : a ∈ l.cycleFrom c ↔ l.Reaches c a := by
  constructor
  · exact reaches_of_mem_cycleFrom
  · intro h
    obtain ⟨rest, hlineage, -, hrest⟩ := exists_lineage_eq_append l c
    cases rest with
    | nil =>
      rw [List.append_nil] at hlineage
      exact hlineage ▸ mem_lineage.2 h
    | cons x rest =>
      -- The parent of the last class listed is `x`, and that is listed already.
      refine h.closed (P := (· ∈ l.cycleFrom c)) (fun {d p} hd hp => ?_) List.mem_cons_self
      obtain ⟨i, hi, rfl⟩ := List.mem_iff_getElem.1 hd
      rw [parent?_of_lineage_eq_append hlineage hi] at hp
      rcases List.mem_append.1 (List.mem_of_getElem? hp) with hp | hp
      · exact hp
      · rw [List.mem_singleton.1 hp]
        exact hrest x rfl

theorem isSuperclassChain_superclasses (l : Links) (c : ClassIndex) :
    l.IsSuperclassChain c (l.superclasses c) := by
  obtain ⟨rest, hlineage, hnodup, -⟩ := exists_lineage_eq_append l c
  obtain ⟨hnew, hnodup⟩ := List.nodup_cons.1 hnodup
  refine ⟨⟨rest, (List.cons.inj hlineage).2.symm⟩, hnodup, fun a => ?_⟩
  rw [← mem_cycleFrom, cycleFrom, List.mem_cons]
  constructor
  · intro ha
    exact ⟨fun hac => hnew (hac ▸ ha), .inr ha⟩
  · rintro ⟨hac, ha⟩
    exact ha.resolve_left hac

end Links

namespace Hierarchy.WellFormed

variable {g : Hierarchy} {b c : ClassIndex}

/-- A class conforms to itself, to the root and to its superclasses. -/
theorem conforms_iff_mem_superclasses (hg : g.WellFormed) :
    g.conforms c b = true ↔ b = c ∨ b = Links.root ∨ b ∈ g.links.superclasses c := by
  rw [hg.conforms_iff, (g.links.isSuperclassChain_superclasses c).mem_iff]
  constructor
  · rintro (hb | h)
    · exact .inr (.inl hb)
    · by_cases hbc : b = c
      · exact .inl hbc
      · exact .inr (.inr ⟨hbc, h⟩)
  · rintro (rfl | hb | ⟨_, h⟩)
    · exact .inr (.refl b)
    · exact .inl hb
    · exact .inr h

/-- Without the rule for sealed classes subtyping would be the same. -/
theorem conforms_eq_walk (hg : g.WellFormed) (c b : ClassIndex) :
    g.conforms c b = (b == c || b == Links.root || (g.ancestors c).contains b) := by
  rw [Bool.eq_iff_iff, hg.conforms_iff]
  simp only [Bool.or_eq_true, beq_iff_eq, List.contains_iff_mem, ancestors, Links.mem_ancestors]
  constructor
  · rintro (hb | h)
    · exact .inl (.inr hb)
    · rcases h.eq_or_below with hb | h
      · exact .inl (.inl hb)
      · exact .inr h
  · rintro ((rfl | hb) | h)
    · exact .inr (.refl b)
    · exact .inl hb
    · exact .inr h.reaches

theorem superclassNames_nameOf (hg : g.WellFormed) (hc : c < g.size) :
    g.superclassNames (g.nameOf c) = .ok ((g.links.superclasses c).map g.nameOf) := by
  rw [superclassNames, hg.lookup_nameOf hc]
  rfl

theorem lt_size_of_mem_superclasses (hg : g.WellFormed) (hc : c < g.size)
    (hb : b ∈ g.links.superclasses c) : b < g.size :=
  hg.lt_size_of_reaches hc (((g.links.isSuperclassChain_superclasses c).mem_iff b).1 hb).2

/-- Classes that are different have different names, so what is asked of the names can be asked of
the classes. -/
theorem nameOf_mem_map_iff (hg : g.WellFormed) {cs : List ClassIndex} (hcs : ∀ c ∈ cs, c < g.size)
    (hb : b < g.size) : g.nameOf b ∈ cs.map g.nameOf ↔ b ∈ cs := by
  constructor
  · intro h
    obtain ⟨c, hc, hname⟩ := List.mem_map.1 h
    exact hg.nameOf_inj (hcs c hc) hb hname ▸ hc
  · exact List.mem_map_of_mem

/-- Subtyping by name, told from the names of the superclasses. -/
theorem conformsByName_eq_superclasses (hg : g.WellFormed) (hc : c < g.size) (hb : b < g.size) :
    g.conformsByName (g.nameOf c) (g.nameOf b) =
      .ok (decide (g.nameOf b = g.nameOf c ∨ g.nameOf b = g.nameOf Links.root ∨
        g.nameOf b ∈ (g.links.superclasses c).map g.nameOf)) := by
  have hlt : ∀ a ∈ g.links.superclasses c, a < g.size := fun _ => hg.lt_size_of_mem_superclasses hc
  have hself : g.nameOf b = g.nameOf c ↔ b = c := ⟨hg.nameOf_inj hb hc, congrArg g.nameOf⟩
  have hroot : g.nameOf b = g.nameOf Links.root ↔ b = Links.root :=
    ⟨hg.nameOf_inj hb hg.root_lt, congrArg g.nameOf⟩
  rw [hg.conformsByName_nameOf hc hb]
  congr 1
  rw [Bool.eq_iff_iff, decide_eq_true_iff, hg.conforms_iff_mem_superclasses,
    hg.nameOf_mem_map_iff hlt hb, hself, hroot]

theorem nodup_map_nameOf (hg : g.WellFormed) {cs : List ClassIndex} (hcs : ∀ c ∈ cs, c < g.size)
    (hnodup : cs.Nodup) : (cs.map g.nameOf).Nodup :=
  hnodup.map_on fun c hc d hd hname => hg.nameOf_inj (hcs c hc) (hcs d hd) hname

end Hierarchy.WellFormed

/-- What lies above a class in the hierarchy of any program. The walk meets it all before it is
cut, and is cut only where it goes round a cycle. The chain of superclasses has every other class
above, once and in the order of the walk, and a class conforms to itself, to the root and to its
superclasses. The rule for sealed classes never changes an answer. -/
theorem superclasses_exact (entryClass : String) (ds : List ClassDeclaration) :
    let g := (Analysis.build entryClass ds).hierarchy
    g.links.size = g.size ∧ g.nameOf Links.root = "Object" ∧
    ∀ c < g.size,
      g.links.IsCutWalk c (g.ancestors c) ∧
      (∃ chain, g.links.IsSuperclassChain c chain ∧
        g.superclassNames (g.nameOf c) = .ok (chain.map g.nameOf) ∧ (chain.map g.nameOf).Nodup ∧
        ∀ b < g.size,
          (g.conforms c b = true ↔ b = c ∨ b = Links.root ∨ b ∈ chain) ∧
          g.conformsByName (g.nameOf c) (g.nameOf b) =
            .ok (decide (g.nameOf b = g.nameOf c ∨ g.nameOf b = g.nameOf Links.root ∨
              g.nameOf b ∈ chain.map g.nameOf))) ∧
      ∀ b < g.size,
        g.conforms c b = (b == c || b == Links.root || (g.ancestors c).contains b) := by
  intro g
  have hg : g.WellFormed := Analysis.wellFormed_build entryClass ds
  refine ⟨hg.size_links, Registry.nameOf_root _, fun c hc => ?_⟩
  have hchain := g.links.isSuperclassChain_superclasses c
  have hlt : ∀ a ∈ g.links.superclasses c, a < g.size := fun _ => hg.lt_size_of_mem_superclasses hc
  refine ⟨g.links.isCutWalk_ancestors c, ⟨g.links.superclasses c, hchain,
    hg.superclassNames_nameOf hc, hg.nodup_map_nameOf hlt hchain.nodup, ?_⟩, ?_⟩
  · intro b hb
    exact ⟨hg.conforms_iff_mem_superclasses, hg.conformsByName_eq_superclasses hc hb⟩
  · exact fun b _ => hg.conforms_eq_walk c b

/-- `C` leads into the cycle of `A` and `B`. Its walk goes round until it is cut, and its chain has
each of the two once. -/
theorem superclasses_crossedProgram :
    let g := (Analysis.build "Main" crossedProgram).hierarchy
    6 < g.size ∧ 7 < g.size ∧ g.nameOf 6 = "B" ∧ g.nameOf 7 = "C" ∧
    (∃ e, g.links.Reaches 7 e ∧ g.links.OnCycle e) ∧ (g.ancestors 7).length = g.links.size ∧
    g.superclassNames (g.nameOf 7) = .ok ["A", "B"] ∧
    g.conformsByName (g.nameOf 7) (g.nameOf 6) = .ok true := by
  intro g
  have h6 : 6 < g.size := by decide +kernel
  have h7 : 7 < g.size := by decide +kernel
  have hcycle : g.links.OnCycle 5 := ⟨6, by decide +kernel, .of_parent? (by decide +kernel)⟩
  have hinto : ∃ e, g.links.Reaches 7 e ∧ g.links.OnCycle e :=
    ⟨5, .of_parent? (by decide +kernel), hcycle⟩
  have hnames : g.superclassNames (g.nameOf 7) = .ok ["A", "B"] := by decide +kernel
  obtain ⟨_, _, habove⟩ := superclasses_exact "Main" crossedProgram
  obtain ⟨hwalk, ⟨chain, _, hlisted, _, hconforms⟩, _⟩ := habove 7 h7
  have hchain : chain.map g.nameOf = ["A", "B"] := Except.ok.inj (hlisted.symm.trans hnames)
  refine ⟨h6, h7, by decide +kernel, by decide +kernel, hinto, hwalk.length_of_cycle hinto, hnames,
    ?_⟩
  rw [(hconforms 6 h6).2, hchain]
  decide +kernel

end CoolHierarchy
