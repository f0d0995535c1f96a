import CoolHierarchy.Proofs.DeclarationNotation
import Mathlib.Data.List.Count
import Mathlib.Data.List.Nodup

/-!
# Faults in a record

A record that lacks a required field or has one field twice cannot be read, and with it nothing can
be read that it is a part of, however deep it lies. Fields of other names are no part of a record,
so nothing is said about what is in them.

* `RecordShape.Accepted.of_within`: where a value is read as a record, the records in it are read.
* `RecordShape.Accepted.not_faulty`: what is read as a record has no fault.
* `ClassDeclaration.ofText?_notations`: all notations of a declaration are read as it, and a record
  with a fault anywhere in it makes a text unreadable.
-/

namespace CoolHierarchy

open Json

variable {names : List String} {name : String} {found : List (String × Json)} {v w : Json}

namespace Json

/-- A value holds another one in a field: as a member of an object, or in the place of an array that
belongs to the field. -/
inductive Holds (names : List String) (name : String) (w : Json) : Json → Prop where
  | member {members : List (Option String × Json)} (hmem : (some name, w) ∈ members) :
      Holds names name w (.object members)
  | item {items : List Json} (hmem : (name, w) ∈ names.zip items) :
      Holds names name w (.array items)

/-! ## What is found is what is held -/

theorem eq_map_of_keys {members : List (Option String × Json)} {ms : List (String × Json)}
    (h : members.mapM (fun m => m.1.map fun key => (key, m.2)) = some ms) :
    members = ms.map fun m => (some m.1, m.2) := by
  induction members generalizing ms with
  | nil =>
    cases h
    rfl
  | cons m members ih =>
    obtain ⟨_ | key, v⟩ := m
    · simp at h
    · rw [List.mapM_cons] at h
      obtain ⟨_, hm, h⟩ := Option.bind_eq_some_iff.1 h
      obtain ⟨rest, hrest, h⟩ := Option.bind_eq_some_iff.1 h
      cases hm
      cases h
      rw [List.map_cons, ← ih hrest]

theorem exists_of_record?_object {members : List (Option String × Json)}
    (h : (Json.object members).record? names = some found) :
    ∃ ms : List (String × Json), members = ms.map (fun m => (some m.1, m.2)) ∧
      found = ms.filter (fun m => names.contains m.1) ∧ (found.map Prod.fst).Nodup := by
  simp only [record?, Option.bind_eq_bind, Option.bind_eq_some_iff] at h
  obtain ⟨ms, hkeys, h⟩ := h
  split at h
  · rename_i hnodup
    cases h
    exact ⟨ms, eq_map_of_keys hkeys, rfl, hnodup⟩
  · cases h

theorem zip_fst_sublist (names : List String) (items : List Json) :
    ((names.zip items).map Prod.fst).Sublist names := by
  induction names generalizing items with
  | nil => simp
  | cons name names ih =>
    cases items with
    | nil => simp
    | cons v items => exact (ih items).cons_cons name

theorem mem_of_lookup_eq_some (h : found.lookup name = some w) : (name, w) ∈ found := by
  obtain ⟨before, after, rfl, -⟩ := List.lookup_eq_some_iff.1 h
  exact List.mem_append_right _ List.mem_cons_self

theorem holds_iff_lookup (hnodup : names.Nodup) (hname : name ∈ names)
    (h : v.record? names = some found) :
    Holds names name w v ↔ found.lookup name = some w := by
  cases v with
  | object members =>
    obtain ⟨ms, rfl, rfl, hfound⟩ := exists_of_record?_object h
    constructor
    · rintro ⟨hmem⟩
      obtain ⟨⟨key, u⟩, hm, heq⟩ := List.mem_map.1 hmem
      cases heq
      exact lookup_eq_some_of_mem hfound
        (List.mem_filter.2 ⟨hm, List.contains_iff_mem.2 hname⟩)
    · intro hlookup
      have hmem := (List.mem_filter.1 (mem_of_lookup_eq_some hlookup)).1
      exact .member (List.mem_map.2 ⟨_, hmem, rfl⟩)
  | array items =>
    rw [record?] at h
    split at h
    · cases h
      constructor
      · rintro (_ | ⟨hmem⟩)
        exact lookup_eq_some_of_mem (hnodup.sublist (zip_fst_sublist names items)) hmem
      · exact fun hlookup => .item (mem_of_lookup_eq_some hlookup)
    · cases h
  | _ => cases h

/-- An object that has a field twice has no fields at all. -/
theorem record?_eq_none_of_repeated {members : List (Option String × Json)} (hname : name ∈ names)
    (htwice : 2 ≤ (members.map Prod.fst).count (some name)) :
    (Json.object members).record? names = none := by
  rw [Option.eq_none_iff_forall_ne_some]
  intro found h
  obtain ⟨ms, rfl, rfl, hnodup⟩ := exists_of_record?_object h
  have hkeys : (ms.map fun m => (some m.1, m.2)).map Prod.fst = (ms.map Prod.fst).map some := by
    rw [List.map_map, List.map_map]
    rfl
  have hfiltered : (ms.filter fun m => names.contains m.1).map Prod.fst
      = (ms.map Prod.fst).filter fun key => names.contains key := by
    rw [List.filter_map]
    rfl
  have honce := List.nodup_iff_count_le_one.1 hnodup name
  rw [hfiltered, List.count_filter (List.contains_iff_mem.2 hname)] at honce
  rw [hkeys, List.count_map_of_injective _ _ fun _ _ => Option.some.inj] at htwice
  exact absurd (Nat.le_trans htwice honce) (by decide)

theorem required_eq_some_iff {read : Json → Option α} {x : α} :
    required found name read = some x ↔ ∃ w, found.lookup name = some w ∧ read w = some x := by
  rw [required]
  exact Option.bind_eq_some_iff

theorem read_of_optional {read : Json → Option α} {default x : α}
    (h : optional found name default read = some x) (hlookup : found.lookup name = some w) :
    read w = some x := by
  rwa [optional, hlookup] at h

theorem asString?_eq_some_iff {text : String} : v.asString? = some text ↔ v = ofString text := by
  constructor
  · intro h
    cases v with
    | string text? =>
      cases h
      rfl
    | _ => cases h
  · rintro rfl
    rfl

/-- A feature whose kind is known holds just this kind. -/
theorem holds_kind_iff {kind : String} (h : Feature.kind? v = some kind) :
    Holds ["kind"] "kind" w v ↔ w = ofString kind := by
  cases v with
  | array items =>
    rw [Feature.kind?] at h
    obtain ⟨u, hhead, hu⟩ := Option.bind_eq_some_iff.1 h
    cases asString?_eq_some_iff.1 hu
    cases items with
    | nil => cases hhead
    | cons v items =>
      cases hhead
      constructor
      · rintro (_ | ⟨hmem⟩)
        simpa using hmem
      · rintro rfl
        exact .item (by simp)
  | object members =>
    obtain ⟨found, hfound, hkind⟩ := Option.bind_eq_some_iff.1 h
    obtain ⟨u, hlookup, hu⟩ := required_eq_some_iff.1 hkind
    rw [holds_iff_lookup (by decide) List.mem_cons_self hfound, hlookup,
      asString?_eq_some_iff.1 hu, Option.some.injEq, eq_comm]
  | _ => cases h

theorem exists_of_listOf? {read : Json → Option α} {xs : List α} {items : List Json}
    (h : listOf? read (.array items) = some xs) : ∀ w ∈ items, ∃ x, read w = some x := by
  induction items generalizing xs with
  | nil => simp
  | cons v items ih =>
    have hread : (v :: items).mapM read = some xs := h
    rw [List.mapM_cons] at hread
    obtain ⟨x, hx, hread⟩ := Option.bind_eq_some_iff.1 hread
    obtain ⟨rest, hrest, -⟩ := Option.bind_eq_some_iff.1 hread
    rintro w (_ | ⟨_, hw⟩)
    · exact ⟨x, hx⟩
    · exact ih hrest w hw

theorem exists_of_nullable? {read : Json → Option α} {x? : Option α}
    (h : nullable? read v = some x?) (hv : v ≠ .null) : ∃ x, read v = some x := by
  rw [nullable?] at h
  · obtain ⟨x, hx, -⟩ := Option.map_eq_some_iff.1 h
    exact ⟨x, hx⟩
  · exact hv

end Json

/-- The records that a declaration is made of. A feature is a method or an attribute; its kind tells
which. -/
inductive RecordShape where
  | span
  | identifier
  | formal
  | methodFeature
  | attributeFeature
  | feature
  | classDeclaration
deriving DecidableEq, Repr

namespace RecordShape

/-- The names of the fields in the order of declaration. -/
def fieldNames : RecordShape → List String
  | span => ["start", "end"]
  | identifier => ["name", "span"]
  | formal => ["name", "type_name", "span"]
  | methodFeature => ["kind", "name", "formals", "return_type", "span"]
  | attributeFeature => ["kind", "name", "type_name", "span"]
  | feature => ["kind"]
  | classDeclaration => ["name", "parent", "features", "span"]

/-- The names of the fields without a default. -/
def requiredNames : RecordShape → List String
  | span => ["start", "end"]
  | identifier => ["name"]
  | formal => ["name", "type_name"]
  | methodFeature => ["name", "return_type"]
  | attributeFeature => ["name", "type_name"]
  | feature => ["kind"]
  | classDeclaration => ["name"]

/-- The fields that hold a record. -/
def recordFields : RecordShape → List (String × RecordShape)
  | span | feature => []
  | identifier | formal | methodFeature | attributeFeature => [("span", span)]
  | classDeclaration => [("name", identifier), ("parent", identifier), ("span", span)]

/-- The fields that hold a list of records. -/
def listFields : RecordShape → List (String × RecordShape)
  | methodFeature => [("formals", formal)]
  | classDeclaration => [("features", feature)]
  | _ => []

/-- What a feature may be. -/
def featureKinds : List (String × RecordShape) :=
  [("method", methodFeature), ("attribute", attributeFeature)]

variable {s t u : RecordShape} {x : Json}

/-- Among the records that a record is made of there is another one. Null is no record. -/
inductive Within : RecordShape → Json → RecordShape → Json → Prop where
  | here {s : RecordShape} {v : Json} : Within s v s v
  | field {s t u : RecordShape} {name : String} {v w x : Json} (hfield : (name, t) ∈ s.recordFields)
      (hholds : Holds s.fieldNames name w v) (hrecord : w ≠ .null) (hin : Within t w u x) :
      Within s v u x
  | item {s t u : RecordShape} {name : String} {v w x : Json} {items : List Json}
      (hfield : (name, t) ∈ s.listFields) (hholds : Holds s.fieldNames name (.array items) v)
      (hitem : w ∈ items) (hin : Within t w u x) : Within s v u x
  | kind {t u : RecordShape} {name : String} {v x : Json} (hkind : (name, t) ∈ featureKinds)
      (hholds : Holds ["kind"] "kind" (ofString name) v) (hin : Within t v u x) :
      Within feature v u x

/-- A required field is missing, or a field is there twice. -/
inductive Faulty (s : RecordShape) : Json → Prop where
  | missing {name : String} {v : Json} (hname : name ∈ s.requiredNames)
      (hmissing : ∀ w, ¬ Holds s.fieldNames name w v) : Faulty s v
  | repeated {name : String} {members : List (Option String × Json)} (hname : name ∈ s.fieldNames)
      (htwice : 2 ≤ (members.map Prod.fst).count (some name)) : Faulty s (.object members)

/-- A value is read as a record of a shape. -/
def Accepted : RecordShape → Json → Prop
  | span, v => ∃ s, Span.ofJson? v = some s
  | identifier, v => ∃ i, Identifier.ofJson? v = some i
  | formal, v => ∃ f, Formal.ofJson? v = some f
  | methodFeature, v => ∃ m, Method.ofJson? v = some m
  | attributeFeature, v => ∃ a, Attribute.ofJson? v = some a
  | feature, v => ∃ depth f, Feature.ofJson? depth v = some f
  | classDeclaration, v => ∃ depth d, ClassDeclaration.ofJson? depth v = some d

/-! ## One record -/

/-- The fields with which a value is read: no required one is missing, and the records in them are
read. -/
structure Fields (s : RecordShape) (v : Json) (found : List (String × Json)) : Prop where
  record : v.record? s.fieldNames = some found
  required : ∀ name ∈ s.requiredNames, ∃ w, found.lookup name = some w
  records : ∀ p ∈ s.recordFields, ∀ w, found.lookup p.1 = some w → w ≠ .null → Accepted p.2 w
  lists : ∀ p ∈ s.listFields, ∀ items, found.lookup p.1 = some (.array items) →
    ∀ w ∈ items, Accepted p.2 w

theorem accepted_of_spanField {place : Span}
    (h : optional found "span" .origin Span.ofJson? = some place) :
    ∀ w, found.lookup "span" = some w → w ≠ .null → Accepted span w :=
  fun _ hlookup _ => ⟨place, read_of_optional h hlookup⟩

theorem exists_fields_span {place : Span} (h : Span.ofJson? v = some place) :
    ∃ found, Fields span v found := by
  simp only [Span.ofJson?, Option.bind_eq_bind, Option.bind_eq_some_iff, required_eq_some_iff] at h
  obtain ⟨found, hrecord, -, ⟨start, hstart, -⟩, -, ⟨stop, hstop, -⟩, -⟩ := h
  exact ⟨found, hrecord, by simp [requiredNames, hstart, hstop], by simp [recordFields],
    by simp [listFields]⟩

theorem exists_fields_identifier {i : Identifier} (h : Identifier.ofJson? v = some i) :
    ∃ found, Fields identifier v found := by
  simp only [Identifier.ofJson?, Option.bind_eq_bind, Option.bind_eq_some_iff,
    required_eq_some_iff] at h
  obtain ⟨found, hrecord, -, ⟨text, htext, -⟩, place, hspan, -⟩ := h
  exact ⟨found, hrecord, by simp [requiredNames, htext],
    by simpa [recordFields] using accepted_of_spanField hspan, by simp [listFields]⟩

theorem exists_fields_formal {f : Formal} (h : Formal.ofJson? v = some f) :
    ∃ found, Fields formal v found := by
  simp only [Formal.ofJson?, Option.bind_eq_bind, Option.bind_eq_some_iff,
    required_eq_some_iff] at h
  obtain ⟨found, hrecord, -, ⟨text, htext, -⟩, -, ⟨type, htype, -⟩, place, hspan, -⟩ := h
  exact ⟨found, hrecord, by simp [requiredNames, htext, htype],
    by simpa [recordFields] using accepted_of_spanField hspan, by simp [listFields]⟩

theorem exists_fields_methodFeature {m : Method} (h : Method.ofJson? v = some m) :
    ∃ found, Fields methodFeature v found := by
  simp only [Method.ofJson?, Option.bind_eq_bind, Option.bind_eq_some_iff,
    required_eq_some_iff] at h
  obtain ⟨found, hrecord, -, ⟨text, htext, -⟩, formals, hformals, -, ⟨type, htype, -⟩, place, hspan,
    -⟩ := h
  have hlist : ∀ items, found.lookup "formals" = some (.array items) →
      ∀ w ∈ items, Accepted formal w := fun items hlookup =>
    exists_of_listOf? (read_of_optional hformals hlookup)
  exact ⟨found, hrecord, by simp [requiredNames, htext, htype],
    by simpa [recordFields] using accepted_of_spanField hspan, by simpa [listFields] using hlist⟩

theorem exists_fields_attributeFeature {a : Attribute} (h : Attribute.ofJson? v = some a) :
    ∃ found, Fields attributeFeature v found := by
  simp only [Attribute.ofJson?, Option.bind_eq_bind, Option.bind_eq_some_iff,
    required_eq_some_iff] at h
  obtain ⟨found, hrecord, -, ⟨text, htext, -⟩, -, ⟨type, htype, -⟩, place, hspan, -⟩ := h
  exact ⟨found, hrecord, by simp [requiredNames, htext, htype],
    by simpa [recordFields] using accepted_of_spanField hspan, by simp [listFields]⟩

theorem exists_fields_classDeclaration {depth : Nat} {d : ClassDeclaration}
    (h : ClassDeclaration.ofJson? depth v = some d) : ∃ found, Fields classDeclaration v found := by
  simp only [ClassDeclaration.ofJson?, Option.bind_eq_bind, Option.bind_eq_some_iff,
    required_eq_some_iff] at h
  obtain ⟨found, hrecord, i, ⟨u, hname, hi⟩, parent, hparent, features, hfeatures, place, hspan,
    -⟩ := h
  have hnameRecord : ∀ w, found.lookup "name" = some w → w ≠ .null → Accepted identifier w := by
    intro w hlookup _
    rw [hname] at hlookup
    cases hlookup
    exact ⟨i, hi⟩
  have hparentRecord : ∀ w, found.lookup "parent" = some w → w ≠ .null → Accepted identifier w :=
    fun w hlookup hw => exists_of_nullable? (read_of_optional hparent hlookup) hw
  have hlist : ∀ items, found.lookup "features" = some (.array items) →
      ∀ w ∈ items, Accepted feature w := fun items hlookup w hw =>
    ⟨_, exists_of_listOf? (read_of_optional hfeatures hlookup) w hw⟩
  refine ⟨found, hrecord, by simp [requiredNames, hname], ?_, by simpa [listFields] using hlist⟩
  simp only [recordFields, List.forall_mem_cons, List.not_mem_nil, false_imp_iff, implies_true,
    and_true]
  exact ⟨hnameRecord, hparentRecord, accepted_of_spanField hspan⟩

/-- A feature is read as what its kind tells. -/
theorem exists_kind_of_feature {depth : Nat} {f : Feature} (h : Feature.ofJson? depth v = some f) :
    ∃ name t, (name, t) ∈ featureKinds ∧ Feature.kind? v = some name ∧ Accepted t v := by
  rw [Feature.ofJson?] at h
  split at h
  · cases h
  · split at h
    · rename_i hkind
      obtain ⟨m, hm, -⟩ := Option.map_eq_some_iff.1 h
      exact ⟨"method", methodFeature, by simp [featureKinds], hkind, m, hm⟩
    · rename_i hkind
      obtain ⟨a, ha, -⟩ := Option.map_eq_some_iff.1 h
      exact ⟨"attribute", attributeFeature, by simp [featureKinds], hkind, a, ha⟩
    · cases h

theorem Accepted.exists_fields (h : Accepted s v) (hs : s ≠ feature) :
    ∃ found, Fields s v found := by
  cases s with
  | span => exact h.elim fun _ => exists_fields_span
  | identifier => exact h.elim fun _ => exists_fields_identifier
  | formal => exact h.elim fun _ => exists_fields_formal
  | methodFeature => exact h.elim fun _ => exists_fields_methodFeature
  | attributeFeature => exact h.elim fun _ => exists_fields_attributeFeature
  | feature => exact absurd rfl hs
  | classDeclaration => exact h.elim fun _ h => h.elim fun _ => exists_fields_classDeclaration

theorem fieldNames_nodup (s : RecordShape) : s.fieldNames.Nodup := by
  cases s <;> decide

theorem requiredNames_subset (s : RecordShape) : s.requiredNames ⊆ s.fieldNames := by
  cases s <;> simp [requiredNames, fieldNames]

/-- What is read as a record has no fault. -/
theorem Accepted.not_faulty (h : Accepted s v) : ¬ Faulty s v := by
  by_cases hs : s = feature
  · subst hs
    obtain ⟨depth, f, hf⟩ := h
    obtain ⟨name, t, -, hkind, -⟩ := exists_kind_of_feature hf
    rintro (⟨hname, hmissing⟩ | ⟨hname, htwice⟩)
    · cases List.mem_singleton.1 hname
      exact hmissing _ ((holds_kind_iff hkind).2 rfl)
    · cases List.mem_singleton.1 hname
      have hnone := record?_eq_none_of_repeated (List.mem_singleton_self "kind") htwice
      rw [Feature.kind?, hnone] at hkind
      · cases hkind
      · rintro items ⟨⟩
  · obtain ⟨found, hfields⟩ := h.exists_fields hs
    rintro (⟨hname, hmissing⟩ | ⟨hname, htwice⟩)
    · obtain ⟨w, hlookup⟩ := hfields.required _ hname
      have hknown := s.requiredNames_subset hname
      exact hmissing w ((holds_iff_lookup s.fieldNames_nodup hknown hfields.record).2 hlookup)
    · have hnone := record?_eq_none_of_repeated hname htwice
      rw [hfields.record] at hnone
      cases hnone

/-! ## Records in one another -/

theorem mem_fieldNames (s : RecordShape) :
    ∀ p ∈ s.recordFields ++ s.listFields, p.1 ∈ s.fieldNames ∧ s ≠ feature := by
  cases s <;> decide

theorem eq_of_mem_featureKinds {name : String} (ht : (name, t) ∈ featureKinds)
    (hu : (name, u) ∈ featureKinds) : t = u := by
  have hfunction : ∀ p ∈ featureKinds, ∀ q ∈ featureKinds, p.1 = q.1 → p.2 = q.2 := by decide
  exact hfunction _ ht _ hu rfl

/-- Where a value is read as a record, so are all the records in it. -/
theorem Accepted.of_within (h : Accepted s v) (hin : Within s v u x) : Accepted u x := by
  induction hin with
  | here => exact h
  | @field s t u name v w x hfield hholds hrecord _ ih =>
    obtain ⟨hname, hs⟩ := s.mem_fieldNames _ (List.mem_append_left _ hfield)
    obtain ⟨found, hfields⟩ := h.exists_fields hs
    have hlookup := (holds_iff_lookup s.fieldNames_nodup hname hfields.record).1 hholds
    exact ih (hfields.records _ hfield w hlookup hrecord)
  | @item s t u name v w x items hfield hholds hitem _ ih =>
    obtain ⟨hname, hs⟩ := s.mem_fieldNames _ (List.mem_append_right _ hfield)
    obtain ⟨found, hfields⟩ := h.exists_fields hs
    have hlookup := (holds_iff_lookup s.fieldNames_nodup hname hfields.record).1 hholds
    exact ih (hfields.lists _ hfield items hlookup w hitem)
  | @kind t u name v x hkind hholds _ ih =>
    obtain ⟨depth, f, hf⟩ := h
    obtain ⟨name', t', hmem, hname, ht⟩ := exists_kind_of_feature hf
    have heq : name = name' := by simpa [ofString] using (holds_kind_iff hname).1 hholds
    subst heq
    cases eq_of_mem_featureKinds hkind hmem
    exact ih ht

end RecordShape

/-- What a declaration holds decides what is read, and not how it is written. The written form is
one of its notations, and every notation is read as the declaration, from any text that spells it; a
record with a fault anywhere in a value makes the value and all its texts unreadable. -/
theorem ClassDeclaration.ofText?_notations :
    (∀ d : ClassDeclaration, d.Spelled maxNesting d.toJson ∧
      ∀ v, d.Spelled maxNesting v → ofJson? maxNesting v = some d ∧
        ∀ text, Json.ofText? text = some v → ofText? text = some d) ∧
    (∀ (v : Json) (s : RecordShape) (w : Json), RecordShape.Within .classDeclaration v s w →
      s.Faulty w → ofJson? maxNesting v = none ∧
        ∀ text, Json.ofText? text = some v → ofText? text = none) := by
  constructor
  · intro d
    refine ⟨d.spelled_toJson maxNesting, fun v h => ?_⟩
    have hread : ofJson? maxNesting v = some d := ofJson?_of_spelled (by decide) h
    refine ⟨hread, fun text htext => ?_⟩
    rw [ofText?, htext]
    exact hread
  · intro v s w hin hfaulty
    have hread : ofJson? maxNesting v = none := by
      rw [Option.eq_none_iff_forall_ne_some]
      intro d hd
      have haccepted : RecordShape.Accepted .classDeclaration v := ⟨maxNesting, d, hd⟩
      exact (haccepted.of_within hin).not_faulty hfaulty
    refine ⟨hread, fun text htext => ?_⟩
    rw [ofText?, htext]
    exact hread

def mainDeclaration : ClassDeclaration :=
  { name := { name := "Main", span := { start := 6, stop := 10 } }
    parent := some { name := "IO" }
    features := [.ofMethod
      { name := "main", formals := [{ name := "x", typeName := "Int" }], returnType := "Object" }] }

/-- The kind comes last, after a member that no feature has; the records are objects and arrays by
turns, and spans and an array's last fields are left out. -/
def scatteredMain : Json :=
  .ofMembers
    [("features", .array [.ofMembers
      [("line", .array [ofNat 7, .null]), ("return_type", ofString "Object"),
       ("formals", .array [.array [ofString "x", ofString "Int"]]), ("name", ofString "main"),
       ("kind", ofString "method")]]),
     ("parent", .array [ofString "IO"]),
     ("name", .ofMembers [("span", .array [ofNat 6, ofNat 10]), ("name", ofString "Main")])]

def twiceNamedFormal : Json :=
  .ofMembers [("name", ofString "x"), ("type_name", ofString "Int"), ("name", ofString "y")]

/-- A formal far inside has two names. -/
def twiceNamedMain : Json :=
  .ofMembers
    [("name", .array [ofString "Main"]),
     ("features", .array [.array
       [ofString "method", ofString "main", .array [twiceNamedFormal], ofString "Object"]])]

theorem notations_scatteredMain :
    mainDeclaration.Spelled maxNesting scatteredMain ∧
    Json.ofText? scatteredMain.render = some scatteredMain ∧
    ClassDeclaration.ofText? scatteredMain.render = some mainDeclaration ∧
    RecordShape.Within .classDeclaration twiceNamedMain .formal twiceNamedFormal ∧
    RecordShape.Faulty .formal twiceNamedFormal ∧
    Json.ofText? twiceNamedMain.render = some twiceNamedMain ∧
    ClassDeclaration.ofText? twiceNamedMain.render = none := by
  have hspelled : mainDeclaration.Spelled maxNesting scatteredMain := by
    have hnone : ∀ m ∈ ([] : List (String × Json)), ∀ P : Prop, P := by simp
    have hline : ∀ m ∈ [("line", Json.array [ofNat 7, .null])],
        m.1 ∉ ["kind", "name", "formals", "return_type", "span"] ∧ m.2.isPlain 124 = true := by
      simpa [isPlain, arePlain] using isPlain_ofUInt32 7
    have hname : Identifier.Spelled 126 mainDeclaration.name _ :=
      .object (.keep rfl (.keep (.array (.cons rfl (.cons rfl (.nil (by simp))))) .nil))
        (fun m hm => hnone m hm _) (List.reverse_perm _)
    have hparent : SpelledOption (Identifier.Spelled 126) mainDeclaration.parent
        (.array [ofString "IO"]) :=
      .array (.cons rfl (.nil (by simp [spanField])))
    have hformals : SpelledList (Formal.Spelled 123) [{ name := "x", typeName := "Int" }]
        (.array [.array [ofString "x", ofString "Int"]]) :=
      ⟨_, rfl, .cons (.array (.cons rfl (.cons rfl (.nil (by simp [spanField]))))) .nil⟩
    have hmethod : Feature.Spelled 125 mainDeclaration.features[0] _ :=
      .object (.keep rfl (.keep rfl (.keep hformals (.keep rfl (.drop rfl .nil))))) hline
        (List.reverse_perm _)
    have hmain : mainDeclaration.Spelled maxNesting _ :=
      .object (.keep hname (.keep hparent (.keep ⟨_, rfl, .cons hmethod .nil⟩ (.drop rfl .nil))))
        (fun m hm => hnone m hm _) (List.reverse_perm _)
    exact hmain
  have hin : RecordShape.Within .classDeclaration twiceNamedMain .formal twiceNamedFormal := by
    have hfeatures : ("features", .feature) ∈ RecordShape.classDeclaration.listFields := by decide
    have hmethod : ("method", .methodFeature) ∈ RecordShape.featureKinds := by decide
    have hformals : ("formals", .formal) ∈ RecordShape.methodFeature.listFields := by decide
    refine .item hfeatures (.member (List.mem_cons_of_mem _ List.mem_cons_self))
      List.mem_cons_self ?_
    refine .kind hmethod (.item List.mem_cons_self) ?_
    exact .item hformals
      (.item (List.mem_cons_of_mem _ (List.mem_cons_of_mem _ List.mem_cons_self)))
      List.mem_cons_self .here
  have hfaulty : RecordShape.Faulty .formal twiceNamedFormal := by
    have hname : "name" ∈ RecordShape.formal.fieldNames := by decide
    exact .repeated hname (by decide)
  have htext : Json.ofText? scatteredMain.render = some scatteredMain :=
    ofText?_render (by decide)
  have htwice : Json.ofText? twiceNamedMain.render = some twiceNamedMain :=
    ofText?_render (by decide)
  obtain ⟨hnotations, hfaults⟩ := ClassDeclaration.ofText?_notations
  have hread := ((hnotations mainDeclaration).2 _ hspelled).2 _ htext
  exact ⟨hspelled, htext, hread, hin, hfaulty, htwice, (hfaults _ _ _ hin hfaulty).2 _ htwice⟩

end CoolHierarchy
