import CoolHierarchy.Hierarchy.Analysis
import CoolHierarchy.Hierarchy.Query
import CoolHierarchy.Proofs.Registry
import CoolHierarchy.Proofs.Walk

/-!
# The hierarchy of a program

Looking up the parent of a registered class ends in one of three ways (`resolveParent_cases`): the
root has none, a class is linked to a registered class that is not sealed, or the look-up fails and
an error names the class. Everything else about links follows, and `Hierarchy.WellFormed` gathers
it.
-/

namespace CoolHierarchy

/-- The classes that a fault cuts off from what is above them. -/
def Fault.severed : Fault → List String
  | .sealedParent className _ => [className]
  | .undeclaredParent className _ => [className]
  | .inheritanceCycle path => path
  | .duplicateClass _ | .reservedName _ | .missingEntry _ => []

/-! ## Looking up a parent -/

/-- Every class but the root descends from the class that its parent clause names, or else from the
root. -/
theorem ClassDeclaration.effectiveParent?_of_ne_root {d : ClassDeclaration}
    (h : d.name.name ≠ rootName) : d.effectiveParent? = some (d.parentName?.getD rootName) := by
  rw [effectiveParent?]
  cases d.parentName? with
  | none => simp [h]
  | some parent => rfl

namespace Registry

variable {r : Registry} {d : ClassDeclaration} {c p : ClassIndex}

theorem resolveParent_of_top (h : d.effectiveParent? = none) : r.resolveParent d = .ok none := by
  rw [resolveParent, h]

/-- A class that descends from something is linked to it, or an error names the class. -/
theorem resolveParent_of_parent {parent : String} (h : d.effectiveParent? = some parent) :
    (∃ p q, r.resolveParent d = .ok (some p) ∧ r.classes[p]? = some q ∧
      q.name.name = parent ∧ isSealedName parent = false) ∨
    ∃ fault, r.resolveParent d = .error fault ∧ fault.severed = [d.name.name] := by
  by_cases hsealed : isSealedName parent = true
  · exact .inr ⟨.sealedParent d.name.name parent, by simp [resolveParent, h, hsealed], rfl⟩
  · cases hp : r.indexOf? parent with
    | none => exact .inr ⟨.undeclaredParent d.name.name parent,
        by simp [resolveParent, h, hsealed, hp], rfl⟩
    | some p =>
      obtain ⟨q, hq, hname⟩ := ClassDeclaration.exists_of_indexIn? hp
      exact .inl ⟨p, q, by simp [resolveParent, h, hsealed, hp], hq, hname, by simpa using hsealed⟩

/-- Only the root descends from nothing. -/
theorem WellFormed.effectiveParent?_eq_none_iff (hr : r.WellFormed) (hc : r.classes[c]? = some d) :
    d.effectiveParent? = none ↔ c = Links.root := by
  constructor
  · intro h
    have hname : d.name.name = rootName := by
      rw [ClassDeclaration.effectiveParent?] at h
      split at h
      · cases h
      · split at h
        · next hname => simpa using hname
        · cases h
    -- The class bears the name of the root, which no declared class may.
    have hobject : Builtin.ofName? d.name.name = some .object := by
      rw [hname]
      exact Builtin.ofName?_name .object
    rw [hr.eq_builtin (Array.mem_of_getElem? hc) hobject] at hc
    exact hr.index_builtin hc
  · rintro rfl
    have hroot : r.classes[Links.root]? = some Builtin.object.declaration :=
      classes_getElem?_builtin r .object
    rw [hroot] at hc
    cases hc
    decide

/-- How the look-up of a parent can end. -/
theorem WellFormed.resolveParent_cases (hr : r.WellFormed) (hc : r.classes[c]? = some d) :
    (c = Links.root ∧ r.resolveParent d = .ok none) ∨
    (c ≠ Links.root ∧ ∃ p q, r.resolveParent d = .ok (some p) ∧ r.classes[p]? = some q ∧
      isSealedName q.name.name = false) ∨
    (c ≠ Links.root ∧ ∃ fault, r.resolveParent d = .error fault ∧
      fault.severed = [d.name.name]) := by
  have htop := hr.effectiveParent?_eq_none_iff hc
  cases h : d.effectiveParent? with
  | none => exact .inl ⟨htop.1 h, resolveParent_of_top h⟩
  | some parent =>
    have hne : c ≠ Links.root := by
      rw [Ne, ← htop, h]
      exact Option.some_ne_none parent
    rcases resolveParent_of_parent (r := r) h with ⟨p, q, hok, hq, hname, hsealed⟩ | herr
    · exact .inr (.inl ⟨hne, p, q, hok, hq, by rw [hname, hsealed]⟩)
    · exact .inr (.inr ⟨hne, herr⟩)

/-- The sealed classes are linked to the root. -/
theorem WellFormed.resolveParent_sealed (hr : r.WellFormed) (hd : d ∈ r.classes)
    (hsealed : isSealedName d.name.name = true) : r.resolveParent d = .ok (some Links.root) := by
  have hroot : r.indexOf? rootName = some Links.root :=
    ClassDeclaration.indexIn?_of_getElem? hr.names_nodup (classes_getElem?_builtin r .object)
  obtain ⟨b, hb, hbs⟩ := Option.any_eq_true _ _ |>.1 hsealed
  have hparent : d.effectiveParent? = some rootName := by
    rw [hr.eq_builtin hd hb]
    cases b with
    | object | io => cases hbs
    | string | int | bool => decide
  have hopen : isSealedName rootName = false := by decide
  simp [resolveParent, hparent, hopen, hroot]

theorem nameOf_root (r : Registry) : r.hierarchy.nameOf Links.root = rootName := by
  have hroot : r.hierarchy.classes[Links.root]? = some Builtin.object.declaration :=
    classes_getElem?_builtin r .object
  rw [Hierarchy.nameOf, Hierarchy.declaration?, hroot]
  rfl

theorem parent?_hierarchy (r : Registry) (c : ClassIndex) :
    r.hierarchy.parent? c = (r.classes[c]?).bind r.link? := by
  simp only [Hierarchy.parent?, hierarchy, links, Links.parent?, Array.getElem?_map]
  cases r.classes[c]? <;> rfl

theorem parent?_hierarchy_of_getElem? (hc : r.classes[c]? = some d) :
    r.hierarchy.parent? c = r.link? d := by
  rw [parent?_hierarchy, hc, Option.bind_some]

theorem parent?_of_resolveParent {o : Option ClassIndex} (hc : r.classes[c]? = some d)
    (h : r.resolveParent d = .ok o) : r.hierarchy.parent? c = o := by
  rw [parent?_hierarchy_of_getElem? hc, link?, h]

end Registry

/-! ## Well-formed hierarchies -/

namespace Hierarchy

variable {g : Hierarchy} {a c d p : ClassIndex}

/-- What the hierarchies of all programs have in common, those with errors included. -/
structure WellFormed (g : Hierarchy) : Prop where
  size_links : g.links.size = g.size
  names_nodup : g.names.Nodup
  root_lt : Links.root < g.size
  root_top : g.parent? Links.root = none
  parent_lt : ∀ {c p}, g.parent? c = some p → p < g.size
  parent_unsealed : ∀ {c p}, g.parent? c = some p → g.isSealed p = false
  sealed_parent : ∀ {c}, g.isSealed c = true → g.parent? c = some Links.root

theorem exists_declaration (h : c < g.size) : ∃ d, g.declaration? c = some d :=
  ⟨g.classes[c], Array.getElem?_eq_getElem h⟩

theorem lt_size_of_declaration? {d : ClassDeclaration} (h : g.declaration? c = some d) :
    c < g.size :=
  (Array.getElem?_eq_some_iff.1 h).1

theorem nameOf_of_declaration? {d : ClassDeclaration} (h : g.declaration? c = some d) :
    g.nameOf c = d.name.name := by
  rw [nameOf, h]

/-- A sealed class is registered: no class has the empty name that an unknown index shows. -/
theorem lt_size_of_isSealed (h : g.isSealed c = true) : c < g.size := by
  cases hc : g.declaration? c with
  | none =>
    rw [isSealed, nameOf, hc] at h
    exact absurd h (by decide)
  | some d => exact lt_size_of_declaration? hc

theorem rootPath_eq_ok_iff {path : List ClassIndex} :
    g.rootPath c = .ok path ↔ g.isRooted c = true ∧ path = (g.links.lineage c).reverse := by
  rw [rootPath]
  split
  · next h => simp [h, eq_comm]
  · next h => simp [h]

theorem rootPath_eq_error_iff {e : QueryError} :
    g.rootPath c = .error e ↔ g.isRooted c = false ∧ e = .brokenChain (g.nameOf c) := by
  rw [rootPath]
  split
  · next h => simp [h]
  · next h => simp [h, eq_comm]

namespace WellFormed

/-- Registered classes are looked up by their names. -/
theorem indexOf?_nameOf (hg : g.WellFormed) (hc : c < g.size) :
    g.indexOf? (g.nameOf c) = some c := by
  obtain ⟨d, hd⟩ := exists_declaration hc
  rw [nameOf_of_declaration? hd]
  exact ClassDeclaration.indexIn?_of_getElem? hg.names_nodup hd

theorem lookup_nameOf (hg : g.WellFormed) (hc : c < g.size) : g.lookup (g.nameOf c) = .ok c := by
  rw [lookup, hg.indexOf?_nameOf hc]

/-- Links stay among the registered classes. -/
theorem lt_size_of_reaches (hg : g.WellFormed) (hc : c < g.size) (h : g.links.Reaches c a) :
    a < g.size :=
  h.closed (fun _ => hg.parent_lt) hc

theorem lt_size_of_parent? (hg : g.WellFormed) (hp : g.parent? c = some p) : c < g.size :=
  hg.size_links ▸ Links.lt_size_of_parent? hp

theorem lt_size_of_mem_children (hg : g.WellFormed) (hc : c ∈ g.children p) : c < g.size :=
  hg.lt_size_of_parent? (Links.mem_children.1 hc)

theorem lt_size_of_below (hg : g.WellFormed) (h : g.links.Below c a) : c < g.size := by
  obtain ⟨p, hp, _⟩ := h
  exact hg.lt_size_of_parent? hp

/-- Only registered classes are rooted. -/
theorem lt_size_of_isRooted (hg : g.WellFormed) (h : g.isRooted c = true) : c < g.size := by
  rcases (Links.isRooted_iff.1 h).eq_or_below with rfl | h
  · exact hg.root_lt
  · exact hg.lt_size_of_below h

theorem nameOf_inj (hg : g.WellFormed) (hc : c < g.size) (hd : d < g.size)
    (h : g.nameOf c = g.nameOf d) : c = d := by
  have hfound := hg.lookup_nameOf hc
  rw [h, hg.lookup_nameOf hd] at hfound
  cases hfound
  rfl

end WellFormed

end Hierarchy

namespace Registry

variable {r : Registry} {d : ClassDeclaration} {c p : ClassIndex}

/-- A link leads from a class other than the root to a registered class that is not sealed. -/
theorem WellFormed.exists_of_parent?_hierarchy (hr : r.WellFormed)
    (hp : r.hierarchy.parent? c = some p) :
    c ≠ Links.root ∧ ∃ q, r.classes[p]? = some q ∧ isSealedName q.name.name = false := by
  rw [parent?_hierarchy] at hp
  obtain ⟨d, hd, hp⟩ := Option.bind_eq_some_iff.1 hp
  rcases hr.resolveParent_cases hd with ⟨_, h⟩ | ⟨hne, p', q, h, hq⟩ | ⟨_, fault, h, _⟩
  · rw [link?, h] at hp
    cases hp
  · rw [link?, h] at hp
    cases hp
    exact ⟨hne, q, hq⟩
  · rw [link?, h] at hp
    cases hp

theorem WellFormed.hierarchy (hr : r.WellFormed) : r.hierarchy.WellFormed where
  size_links := by simp [Hierarchy.size, Registry.hierarchy, links, Links.size]
  names_nodup := hr.names_nodup
  root_lt := (Array.getElem?_eq_some_iff.1 (classes_getElem?_builtin r .object)).1
  root_top := by
    cases hp : r.hierarchy.parent? Links.root with
    | none => rfl
    | some p => exact absurd rfl (hr.exists_of_parent?_hierarchy hp).1
  parent_lt := by
    intro c p hp
    obtain ⟨_, q, hq, _⟩ := hr.exists_of_parent?_hierarchy hp
    exact (Array.getElem?_eq_some_iff.1 hq).1
  parent_unsealed := by
    intro c p hp
    obtain ⟨_, q, hq, hopen⟩ := hr.exists_of_parent?_hierarchy hp
    have hname : r.hierarchy.nameOf p = q.name.name := Hierarchy.nameOf_of_declaration? hq
    rw [Hierarchy.isSealed, hname, hopen]
  sealed_parent := by
    intro c hc
    obtain ⟨d, hd⟩ := Hierarchy.exists_declaration (Hierarchy.lt_size_of_isSealed hc)
    rw [Hierarchy.isSealed, Hierarchy.nameOf_of_declaration? hd] at hc
    exact parent?_of_resolveParent hd (hr.resolveParent_sealed (Array.mem_of_getElem? hd) hc)

/-- A class other than the root is linked to the class that it names as its parent, or to the root
when it names none, unless that is sealed or not registered. -/
theorem WellFormed.parent?_eq_of_declared (hr : r.WellFormed)
    (hd : r.classes[c]? = some d) (hc : c ≠ Links.root) :
    r.hierarchy.parent? c =
      if isSealedName (d.parentName?.getD rootName) then none
      else r.hierarchy.indexOf? (d.parentName?.getD rootName) := by
  have hroot : d.name.name ≠ rootName := by
    intro hname
    have hnameOf : r.hierarchy.nameOf c = d.name.name := Hierarchy.nameOf_of_declaration? hd
    refine hc (hr.hierarchy.nameOf_inj (Hierarchy.lt_size_of_declaration? hd)
      hr.hierarchy.root_lt ?_)
    rw [hnameOf, hname, nameOf_root]
  rw [parent?_hierarchy_of_getElem? hd, link?, resolveParent,
    ClassDeclaration.effectiveParent?_of_ne_root hroot]
  by_cases hsealed : isSealedName (d.parentName?.getD rootName) = true
  · simp only [if_pos hsealed]
  · simp only [if_neg hsealed]
    show _ = r.indexOf? (d.parentName?.getD rootName)
    cases r.indexOf? (d.parentName?.getD rootName) <;> rfl

/-- So a link leads from a class other than the root to the class of that name. -/
theorem WellFormed.parent?_eq_some_iff (hr : r.WellFormed) :
    r.hierarchy.parent? c = some p ↔ c ≠ Links.root ∧ ∃ d q, r.classes[c]? = some d ∧
      r.classes[p]? = some q ∧ q.name.name = d.parentName?.getD rootName ∧
      isSealedName q.name.name = false := by
  constructor
  · intro hp
    obtain ⟨hc, q, hq, hopen⟩ := hr.exists_of_parent?_hierarchy hp
    obtain ⟨d, hd⟩ := Hierarchy.exists_declaration (hr.hierarchy.lt_size_of_parent? hp)
    refine ⟨hc, d, q, hd, hq, ?_, hopen⟩
    rw [hr.parent?_eq_of_declared hd hc] at hp
    split at hp
    · cases hp
    · obtain ⟨q', hq', hname⟩ := ClassDeclaration.exists_of_indexIn? hp
      cases hq.symm.trans hq'
      exact hname
  · rintro ⟨hc, d, q, hd, hq, hname, hopen⟩
    rw [hr.parent?_eq_of_declared hd hc, ← hname, hopen]
    exact ClassDeclaration.indexIn?_of_getElem? hr.names_nodup hq

/-- The sealed classes are the sealed ones among the basic classes. -/
theorem WellFormed.isSealed_iff (hr : r.WellFormed) :
    r.hierarchy.isSealed c = true ↔ ∃ b : Builtin, b.isSealed = true ∧ c = b.position := by
  constructor
  · intro hc
    obtain ⟨d, hd⟩ := Hierarchy.exists_declaration (Hierarchy.lt_size_of_isSealed hc)
    rw [Hierarchy.isSealed, Hierarchy.nameOf_of_declaration? hd] at hc
    obtain ⟨b, hb, hsealed⟩ := Option.any_eq_true _ _ |>.1 hc
    rw [hr.eq_builtin (Array.mem_of_getElem? hd) hb] at hd
    exact ⟨b, hsealed, hr.index_builtin hd⟩
  · rintro ⟨b, hsealed, rfl⟩
    have hname : r.hierarchy.nameOf b.position = b.declaration.name.name :=
      Hierarchy.nameOf_of_declaration? (classes_getElem?_builtin r b)
    rw [Hierarchy.isSealed, hname, Builtin.declaration_name, isSealedName, Builtin.ofName?_name]
    exact hsealed

end Registry

namespace Analysis

variable (entryClass : String) (ds : List ClassDeclaration)

/-- The registry that a program is analysed from. -/
theorem wellFormed_registry : (Registry.addAll { entryClass } ds).WellFormed :=
  (Registry.wellFormed_initial entryClass).addAll ds

/-- The hierarchy of every program is well formed. -/
theorem wellFormed_build : (build entryClass ds).hierarchy.WellFormed :=
  (wellFormed_registry entryClass ds).hierarchy

end Analysis

end CoolHierarchy
