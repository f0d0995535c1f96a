import CoolHierarchy.Declaration.Decode
import Mathlib.Data.List.Forall2
import Mathlib.Data.List.Perm.Basic

/-!
# The notations of a record

One record is written in many ways: as an object with its members in any order and with members of
other names between them, or as an array, and either way without some fields that have their
default values. `SpelledRecord` says which values spell a record whose fields are known.

* `exists_record?_of_spelled`: all of them are read as the same fields.
* `isPlain_of_spelled`: they are plain when the spelled fields are.
-/

namespace CoolHierarchy.Json

/-- A field of a record and what it is to hold: which values spell that, and whether it may be left
out because it is the default. -/
structure RecordField where
  name : String
  Spelled : Json → Prop
  MayDrop : Prop := False

/-- Members for fields in the order of declaration, without some that may be left out. -/
inductive SpelledMembers : List RecordField → List (String × Json) → Prop where
  | nil : SpelledMembers [] []
  | keep {f : RecordField} {fields : List RecordField} {v : Json} {members : List (String × Json)}
      (hv : f.Spelled v) (hrest : SpelledMembers fields members) :
      SpelledMembers (f :: fields) ((f.name, v) :: members)
  | drop {f : RecordField} {fields : List RecordField} {members : List (String × Json)}
      (hf : f.MayDrop) (hrest : SpelledMembers fields members) :
      SpelledMembers (f :: fields) members

/-- Items for fields in the order of declaration, up to a field after which all may be left out. -/
inductive SpelledItems : List RecordField → List Json → Prop where
  | nil {fields : List RecordField} (hfields : ∀ f ∈ fields, f.MayDrop) : SpelledItems fields []
  | cons {f : RecordField} {fields : List RecordField} {v : Json} {items : List Json}
      (hv : f.Spelled v) (hrest : SpelledItems fields items) :
      SpelledItems (f :: fields) (v :: items)

/-- The values that spell a record in a place where containers may be nested `depth` deep. -/
inductive SpelledRecord (depth : Nat) (fields : List RecordField) : Json → Prop where
  | object {known extra members : List (String × Json)} (hknown : SpelledMembers fields known)
      (hextra : ∀ m ∈ extra, m.1 ∉ fields.map RecordField.name ∧ m.2.isPlain (depth - 1))
      (hperm : members.Perm (known ++ extra)) : SpelledRecord depth fields (ofMembers members)
  | array {items : List Json} (hitems : SpelledItems fields items) :
      SpelledRecord depth fields (.array items)

/-- The arrays that spell a list. -/
def SpelledList (Spelled : α → Json → Prop) (xs : List α) (v : Json) : Prop :=
  ∃ items, v = .array items ∧ List.Forall₂ Spelled xs items

/-- The values that spell something that may be missing. -/
def SpelledOption (Spelled : α → Json → Prop) : Option α → Json → Prop
  | none, v => v = .null
  | some x, v => Spelled x v

variable {f : RecordField} {fields : List RecordField} {known extra members : List (String × Json)}
  {items : List Json} {names : List String} {depth : Nat} {v : Json}

/-! ## Look-up by name -/

/-- A field is found with a value that spells it, or is rightly left out. -/
def Finds (members : List (String × Json)) (f : RecordField) : Prop :=
  (∃ v, members.lookup f.name = some v ∧ f.Spelled v) ∨ (members.lookup f.name = none ∧ f.MayDrop)

theorem lookup_eq_some_of_mem {key : String} (hnodup : (members.map Prod.fst).Nodup)
    (hmem : (key, v) ∈ members) : members.lookup key = some v := by
  induction members with
  | nil => cases hmem
  | cons m members ih =>
    obtain ⟨hnot, hnodup⟩ := List.nodup_cons.1 hnodup
    rcases List.mem_cons.1 hmem with rfl | hmem
    · rw [List.lookup_cons_self]
    · have hne : key ≠ m.1 := by
        rintro rfl
        exact hnot (List.mem_map.2 ⟨_, hmem, rfl⟩)
      rw [List.lookup_cons, beq_eq_false_iff_ne.2 hne]
      exact ih hnodup hmem

theorem lookup_eq_none_of_not_mem {key : String} (hkey : key ∉ members.map Prod.fst) :
    members.lookup key = none := by
  rw [List.lookup_eq_none_iff]
  intro m hm
  rw [bne_iff_ne]
  rintro rfl
  exact hkey (List.mem_map_of_mem hm)

theorem finds_of_mem (hnodup : (members.map Prod.fst).Nodup)
    (h : (∃ v, (f.name, v) ∈ members ∧ f.Spelled v) ∨ (f.name ∉ members.map Prod.fst ∧ f.MayDrop)) :
    Finds members f := by
  rcases h with ⟨v, hmem, hv⟩ | ⟨hnot, hdrop⟩
  · exact .inl ⟨v, lookup_eq_some_of_mem hnodup hmem, hv⟩
  · exact .inr ⟨lookup_eq_none_of_not_mem hnot, hdrop⟩

/-! ## Objects -/

theorem SpelledMembers.sublist (h : SpelledMembers fields known) :
    (known.map Prod.fst).Sublist (fields.map RecordField.name) := by
  induction h with
  | nil => exact .slnil
  | keep _ _ ih => exact ih.cons_cons _
  | drop _ _ ih => exact ih.cons _

theorem SpelledMembers.exists_field (h : SpelledMembers fields known) :
    ∀ m ∈ known, ∃ f ∈ fields, f.name = m.1 ∧ f.Spelled m.2 := by
  induction h with
  | nil => simp
  | keep hv _ ih =>
    rintro m (_ | ⟨_, hm⟩)
    · exact ⟨_, List.mem_cons_self, rfl, hv⟩
    · obtain ⟨f, hf, hm⟩ := ih m hm
      exact ⟨f, List.mem_cons_of_mem _ hf, hm⟩
  | drop _ _ ih =>
    intro m hm
    obtain ⟨f, hf, hm⟩ := ih m hm
    exact ⟨f, List.mem_cons_of_mem _ hf, hm⟩

theorem SpelledMembers.kept_or_dropped (h : SpelledMembers fields known)
    (hnodup : (fields.map RecordField.name).Nodup) :
    ∀ f ∈ fields, (∃ v, (f.name, v) ∈ known ∧ f.Spelled v) ∨
      (f.name ∉ known.map Prod.fst ∧ f.MayDrop) := by
  induction h with
  | nil => simp
  | @keep g fields v known hv _ ih =>
    obtain ⟨hnot, hnodup⟩ := List.nodup_cons.1 hnodup
    rintro f (_ | ⟨_, hf⟩)
    · exact .inl ⟨v, List.mem_cons_self, hv⟩
    · rcases ih hnodup f hf with ⟨w, hmem, hw⟩ | ⟨habsent, hdrop⟩
      · exact .inl ⟨w, List.mem_cons_of_mem _ hmem, hw⟩
      · have hne : f.name ≠ g.name := fun heq => hnot (heq ▸ List.mem_map_of_mem hf)
        exact .inr ⟨by simpa [hne] using habsent, hdrop⟩
  | @drop g fields known hdrop hrest ih =>
    obtain ⟨hnot, hnodup⟩ := List.nodup_cons.1 hnodup
    rintro f (_ | ⟨_, hf⟩)
    · exact .inr ⟨fun hmem => hnot (hrest.sublist.subset hmem), hdrop⟩
    · exact ih hnodup f hf

theorem record?_ofMembers (names : List String) (members : List (String × Json)) :
    (ofMembers members).record? names =
      if ((members.filter fun m => names.contains m.1).map Prod.fst).Nodup then
        some (members.filter fun m => names.contains m.1)
      else none := by
  have hkeys : (members.map fun m => (some m.1, m.2)).mapM
      (fun m : Option String × Json => m.1.map fun key => (key, m.2)) = some members := by
    induction members with
    | nil => rfl
    | cons m members ih =>
      rw [List.map_cons, List.mapM_cons, ih]
      rfl
  have hrecord : (ofMembers members).record? names
      = ((members.map fun m => (some m.1, m.2)).mapM
          fun m : Option String × Json => m.1.map fun key => (key, m.2)).bind fun ms =>
        let fields := ms.filter fun m => names.contains m.1
        if (fields.map Prod.fst).Nodup then some fields else none := rfl
  rw [hrecord, hkeys]
  rfl

/-- In an object the fields are found by their names, whatever else stands there; it is enough to
look for some of them. -/
theorem exists_record?_ofMembers (names : List String)
    (hnodup : (fields.map RecordField.name).Nodup) (hknown : SpelledMembers fields known)
    (hextra : ∀ m ∈ extra, m.1 ∉ fields.map RecordField.name)
    (hperm : members.Perm (known ++ extra)) (hnames : names ⊆ fields.map RecordField.name) :
    ∃ found, (ofMembers members).record? names = some found ∧
      ∀ f ∈ fields, f.name ∈ names → Finds found f := by
  have hnone : extra.filter (fun m => names.contains m.1) = [] := by
    rw [List.filter_eq_nil_iff]
    intro m hm hcontains
    exact hextra m hm (hnames (List.contains_iff_mem.1 hcontains))
  have hfound : (members.filter fun m => names.contains m.1).Perm
      (known.filter fun m => names.contains m.1) := by
    have hfilter := hperm.filter fun m => names.contains m.1
    rwa [List.filter_append, hnone, List.append_nil] at hfilter
  have hnodupFound : ((members.filter fun m => names.contains m.1).map Prod.fst).Nodup := by
    rw [(hfound.map Prod.fst).nodup_iff]
    exact (hnodup.sublist hknown.sublist).sublist (List.filter_sublist.map _)
  refine ⟨_, by rw [record?_ofMembers, if_pos hnodupFound], fun f hf hname => ?_⟩
  refine finds_of_mem hnodupFound ((hknown.kept_or_dropped hnodup f hf).imp ?_ ?_)
  · rintro ⟨v, hmem, hv⟩
    exact ⟨v, hfound.mem_iff.2 (List.mem_filter.2 ⟨hmem, List.contains_iff_mem.2 hname⟩), hv⟩
  · rintro ⟨habsent, hdrop⟩
    refine ⟨fun hmem => habsent ?_, hdrop⟩
    exact (List.filter_sublist.map _).subset ((hfound.map Prod.fst).mem_iff.1 hmem)

/-! ## Arrays -/

theorem SpelledItems.length_le (h : SpelledItems fields items) : items.length ≤ fields.length := by
  induction h with
  | nil => exact Nat.zero_le _
  | cons _ _ ih => exact Nat.succ_le_succ ih

theorem SpelledItems.exists_field (h : SpelledItems fields items) :
    ∀ v ∈ items, ∃ f ∈ fields, f.Spelled v := by
  induction h with
  | nil => simp
  | cons hv _ ih =>
    rintro w (_ | ⟨_, hw⟩)
    · exact ⟨_, List.mem_cons_self, hv⟩
    · obtain ⟨f, hf, hspelled⟩ := ih w hw
      exact ⟨f, List.mem_cons_of_mem _ hf, hspelled⟩

theorem SpelledItems.finds (h : SpelledItems fields items)
    (hnodup : (fields.map RecordField.name).Nodup) :
    ∀ f ∈ fields, Finds ((fields.map RecordField.name).zip items) f := by
  induction h with
  | nil hfields => exact fun f hf => .inr ⟨by rw [List.zip_nil_right]; rfl, hfields f hf⟩
  | @cons g fields v items hv _ ih =>
    obtain ⟨hnot, hnodup⟩ := List.nodup_cons.1 hnodup
    rintro f (_ | ⟨_, hf⟩)
    · exact .inl ⟨v, List.lookup_cons_self, hv⟩
    · have hne : f.name ≠ g.name := fun heq => hnot (heq ▸ List.mem_map_of_mem hf)
      rw [Finds, List.map_cons, List.zip_cons_cons, List.lookup_cons, beq_eq_false_iff_ne.2 hne]
      exact ih hnodup f hf

/-! ## Records -/

theorem exists_record?_of_spelled (names : List String)
    (hnames : fields.map RecordField.name = names) (hnodup : names.Nodup)
    (h : SpelledRecord depth fields v) :
    ∃ found, v.record? names = some found ∧ fields.Forall (Finds found) := by
  subst hnames
  simp only [List.forall_iff_forall_mem]
  cases h with
  | object hknown hextra hperm =>
    obtain ⟨found, hfound, hfinds⟩ := exists_record?_ofMembers _ hnodup hknown
      (fun m hm => (hextra m hm).1) hperm (List.Subset.refl _)
    exact ⟨found, hfound, fun f hf => hfinds f hf (List.mem_map_of_mem hf)⟩
  | array hitems =>
    have hlength := hitems.length_le
    rw [← List.length_map RecordField.name] at hlength
    exact ⟨_, by rw [record?, if_pos hlength], hitems.finds hnodup⟩

theorem required_of_finds {read : Json → Option α} {x : α} (h : Finds members f)
    (hneeded : ¬ f.MayDrop) (hread : ∀ w, f.Spelled w → read w = some x) :
    required members f.name read = some x := by
  rcases h with ⟨w, hlookup, hw⟩ | ⟨-, hdrop⟩
  · rw [required, hlookup]
    exact hread w hw
  · exact absurd hdrop hneeded

theorem optional_of_finds {read : Json → Option α} {x default : α} (h : Finds members f)
    (hdefault : f.MayDrop → x = default) (hread : ∀ w, f.Spelled w → read w = some x) :
    optional members f.name default read = some x := by
  rcases h with ⟨w, hlookup, hw⟩ | ⟨hlookup, hdrop⟩
  · rw [optional, hlookup]
    exact hread w hw
  · rw [optional, hlookup, hdefault hdrop]

/-- The field that tells what kind a feature is. -/
def kindField (kind : String) : RecordField :=
  { name := "kind", Spelled := (· = ofString kind) }

/-- The kind of a feature is found first, whichever fields stand beside it. -/
theorem kind?_of_spelled {kind : String}
    (hnodup : ((kindField kind :: fields).map RecordField.name).Nodup)
    (h : SpelledRecord depth (kindField kind :: fields) v) : Feature.kind? v = some kind := by
  cases h with
  | object hknown hextra hperm =>
    obtain ⟨found, hfound, hfinds⟩ := exists_record?_ofMembers ["kind"] hnodup hknown
      (fun m hm => (hextra m hm).1) hperm (by simp [kindField])
    have hkind : required found "kind" asString? = some kind :=
      required_of_finds (hfinds (kindField kind) List.mem_cons_self List.mem_cons_self) not_false
        (by rintro w rfl; rfl)
    rw [ofMembers] at hfound ⊢
    rw [Feature.kind?, hfound]
    · exact hkind
    · rintro items ⟨⟩
  | array hitems =>
    cases hitems with
    | nil hdrop => exact (hdrop _ List.mem_cons_self).elim
    | cons hv _ =>
      cases hv
      rfl

theorem spelledRecord_ofMembers (h : SpelledMembers fields members) :
    SpelledRecord depth fields (ofMembers members) :=
  have hextra : ∀ m ∈ ([] : List (String × Json)),
      m.1 ∉ fields.map RecordField.name ∧ m.2.isPlain (depth - 1) = true := by simp
  .object h hextra (by rw [List.append_nil])

/-! ## Lists and missing values -/

theorem listOf?_of_spelled {Spelled : α → Json → Prop} {read : Json → Option α} {xs : List α}
    (h : SpelledList Spelled xs v) (hread : ∀ x w, Spelled x w → read w = some x) :
    listOf? read v = some xs := by
  obtain ⟨items, rfl, hitems⟩ := h
  have hmap : items.mapM read = some xs := by
    induction hitems with
    | nil => rfl
    | cons hw _ ih =>
      rw [List.mapM_cons, hread _ _ hw, ih]
      rfl
  exact hmap

theorem nullable?_of_spelled {Spelled : α → Json → Prop} {read : Json → Option α} {x? : Option α}
    (h : SpelledOption Spelled x? v) (hnull : read .null = none)
    (hread : ∀ x w, Spelled x w → read w = some x) : nullable? read v = some x? := by
  cases x? with
  | none =>
    cases h
    rfl
  | some x =>
    have hsome := hread x v h
    rw [nullable?, hsome]
    · rfl
    · rintro rfl
      rw [hnull] at hsome
      cases hsome

/-! ## Plain values -/

theorem arePlain_iff : arePlain depth items = true ↔ ∀ v ∈ items, v.isPlain depth = true := by
  induction items with
  | nil => simp [arePlain]
  | cons v items ih => simp [arePlain, ih]

theorem membersArePlain_iff {members : List (Option String × Json)} :
    membersArePlain depth members = true ↔
      ∀ m ∈ members, m.1.isSome = true ∧ m.2.isPlain depth = true := by
  induction members with
  | nil => simp [membersArePlain]
  | cons m members ih => simp [membersArePlain, ih]

theorem isPlain_of_spelled (h : SpelledRecord (depth + 1) fields v)
    (hfields : fields.Forall fun f => ∀ w, f.Spelled w → w.isPlain depth = true) :
    v.isPlain (depth + 1) = true := by
  rw [List.forall_iff_forall_mem] at hfields
  cases h with
  | @object known extra members hknown hextra hperm =>
    rw [ofMembers, isPlain, membersArePlain_iff]
    intro m hm
    obtain ⟨⟨key, w⟩, hmem, rfl⟩ := List.mem_map.1 hm
    refine ⟨rfl, ?_⟩
    rcases List.mem_append.1 (hperm.mem_iff.1 hmem) with hmem | hmem
    · obtain ⟨f, hf, -, hspelled⟩ := hknown.exists_field _ hmem
      exact hfields f hf w hspelled
    · exact (hextra _ hmem).2
  | array hitems =>
    rw [isPlain, arePlain_iff]
    intro w hw
    obtain ⟨f, hf, hspelled⟩ := hitems.exists_field w hw
    exact hfields f hf w hspelled

theorem isPlain_of_spelledList {Spelled : α → Json → Prop} {xs : List α}
    (h : SpelledList Spelled xs v) (hitems : ∀ x w, Spelled x w → w.isPlain depth = true) :
    v.isPlain (depth + 1) = true := by
  obtain ⟨items, rfl, hspelled⟩ := h
  rw [isPlain, arePlain_iff]
  induction hspelled with
  | nil => simp
  | cons hw _ ih =>
    rintro w (_ | ⟨_, hmem⟩)
    · exact hitems _ _ hw
    · exact ih w hmem

end CoolHierarchy.Json
