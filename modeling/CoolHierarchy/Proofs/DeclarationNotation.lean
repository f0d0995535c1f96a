import CoolHierarchy.Declaration.Encode
import CoolHierarchy.Proofs.JsonText
import CoolHierarchy.Proofs.RecordNotation

/-!
# The notations of a declaration

Every record of a declaration may be written in a notation of its own choice. What spells a
declaration is said record by record, with the fields in the order of declaration, the required
ones and those with a default, and all of it is read as the declaration. The form in which
declarations are written is one of these notations.

* `ClassDeclaration.ofJson?_of_spelled`: every notation of a declaration is read as it.
* `ofText?_toText`: the text that is written for a declaration is read as it.
-/

namespace CoolHierarchy

open Json

variable {depth : Nat} {v : Json}

/-! ## Offsets are finite numbers -/

namespace NumberLiteral

theorem round53_of_lt {n : Nat} (h : n < Nat.pow 2 53) : round53 n = n := by
  have hshift : Nat.log2 n + 1 - 53 = 0 := by
    rcases Nat.eq_zero_or_pos n with rfl | hpos
    · rfl
    · have hlt : Nat.log2 n < 53 := (Nat.log2_lt (Nat.ne_of_gt hpos)).2 h
      omega
  simp [round53, hshift, Nat.mod_one]

theorem le_ofDigitChars (ds : List Char) (s : Nat) : s ≤ Nat.ofDigitChars 10 ds s := by
  rw [Nat.ofDigitChars_eq_ofDigitChars_zero]
  exact Nat.le_add_right_of_le (Nat.le_mul_of_pos_left s (Nat.pow_pos (by decide)))

/-- Digits are taken up one by one, and what they stand for only grows: all of them are taken up if
the whole of it fits. -/
theorem takeSignificand_of_lt {s : Nat} {ds : List Char}
    (h : Nat.ofDigitChars 10 ds s < UInt64.size) :
    takeSignificand s ds = (Nat.ofDigitChars 10 ds s, ds.length) := by
  induction ds generalizing s with
  | nil => rfl
  | cons c ds ih =>
    rw [Nat.ofDigitChars_cons] at h ⊢
    have hstep := Nat.lt_of_le_of_lt (le_ofDigitChars ds _) h
    have hzero : '0'.toNat = 48 := rfl
    rw [hzero] at h hstep ⊢
    rw [takeSignificand, if_pos hstep, ih h]
    rfl

theorem isFinite_ofNat {n : Nat} (h : n < Nat.pow 2 53) : (ofNat n).isFinite = true := by
  have hsize : Nat.ofDigitChars 10 (Nat.toDigits 10 n) 0 < UInt64.size := by
    rw [Nat.ofDigitChars_ten_toDigits]
    exact Nat.lt_trans h (by decide)
  have htake := takeSignificand_of_lt hsize
  rw [Nat.ofDigitChars_ten_toDigits] at htake
  have hone : round53 1 = 1 := by decide
  have hround : round53 (round53 n * round53 1) = n := by
    rw [hone, Nat.mul_one, round53_of_lt h, round53_of_lt h]
  have hlt : ∀ k, 53 ≤ k → n < Nat.pow 2 k := fun k hk =>
    Nat.lt_of_lt_of_le h (Nat.pow_le_pow_right (by decide) hk)
  rw [isFinite]
  simp only [ofNat, htake, takeSignificand, Option.getD_none, Nat.sub_self, Int.add_zero,
    Int.sub_zero, Int.natCast_zero, Int.toNat_zero, Bool.or_eq_true, Bool.and_eq_true,
    decide_eq_true_eq]
  exact .inr ⟨by decide, Nat.lt_of_le_of_lt (Nat.le_of_eq hround) (hlt 1024 (by decide))⟩

end NumberLiteral

theorem isPlain_ofUInt32 (n : UInt32) : (ofNat n.toNat).isPlain depth = true := by
  rw [ofNat, isPlain]
  exact NumberLiteral.isFinite_ofNat (Nat.lt_trans n.toNat_lt (by decide))

theorem asUInt32?_ofUInt32 (n : UInt32) : asUInt32? (ofNat n.toNat) = some n := by
  simp [asUInt32?, asNat?, ofNat, n.toNat_lt]

/-! ## What spells a record -/

def textField (name text : String) : RecordField :=
  { name, Spelled := (· = ofString text) }

def Span.Spelled (depth : Nat) (s : Span) : Json → Prop :=
  SpelledRecord depth
    [{ name := "start", Spelled := (· = .ofNat s.start.toNat) },
     { name := "end", Spelled := (· = .ofNat s.stop.toNat) }]

/-- The field for the place in the source, which every record but a span has as its last. -/
def spanField (depth : Nat) (s : Span) : RecordField :=
  { name := "span", Spelled := s.Spelled depth, MayDrop := s = .origin }

def Identifier.Spelled (depth : Nat) (i : Identifier) : Json → Prop :=
  SpelledRecord depth [textField "name" i.name, spanField (depth - 1) i.span]

def Formal.Spelled (depth : Nat) (f : Formal) : Json → Prop :=
  SpelledRecord depth
    [textField "name" f.name, textField "type_name" f.typeName, spanField (depth - 1) f.span]

/-- Formals stand in a list, two containers below their method. -/
def Method.Spelled (depth : Nat) (m : Method) : Json → Prop :=
  SpelledRecord depth
    [kindField "method",
     textField "name" m.name,
     { name := "formals"
       Spelled := SpelledList (Formal.Spelled (depth - 2)) m.formals
       MayDrop := m.formals = [] },
     textField "return_type" m.returnType,
     spanField (depth - 1) m.span]

def Attribute.Spelled (depth : Nat) (a : Attribute) : Json → Prop :=
  SpelledRecord depth
    [kindField "attribute",
     textField "name" a.name,
     textField "type_name" a.typeName,
     spanField (depth - 1) a.span]

def Feature.Spelled (depth : Nat) : Feature → Json → Prop
  | .ofMethod m => m.Spelled depth
  | .ofAttribute a => a.Spelled depth

/-- Features stand in a list, two containers below their class. -/
def ClassDeclaration.Spelled (depth : Nat) (d : ClassDeclaration) : Json → Prop :=
  SpelledRecord depth
    [{ name := "name", Spelled := d.name.Spelled (depth - 1) },
     { name := "parent"
       Spelled := SpelledOption (Identifier.Spelled (depth - 1)) d.parent
       MayDrop := d.parent = none },
     { name := "features"
       Spelled := SpelledList (Feature.Spelled (depth - 2)) d.features
       MayDrop := d.features = [] },
     spanField (depth - 1) d.span]

/-! ## Every notation is read -/

theorem text_of_finds {members : List (String × Json)} {name text : String}
    (h : Finds members (textField name text)) : required members name asString? = some text :=
  required_of_finds h not_false (by rintro w rfl; rfl)

theorem Span.ofJson?_of_spelled {s : Span} (h : s.Spelled depth v) : Span.ofJson? v = some s := by
  obtain ⟨found, hfound, hstart, hstop⟩ :=
    exists_record?_of_spelled ["start", "end"] rfl (by decide) h
  have hstart : required found "start" asUInt32? = some s.start :=
    required_of_finds hstart not_false (by rintro w rfl; exact asUInt32?_ofUInt32 _)
  have hstop : required found "end" asUInt32? = some s.stop :=
    required_of_finds hstop not_false (by rintro w rfl; exact asUInt32?_ofUInt32 _)
  simp only [Span.ofJson?, hfound, hstart, hstop, Option.bind_eq_bind, Option.bind_some]

theorem span_of_finds {members : List (String × Json)} {s : Span}
    (h : Finds members (spanField depth s)) :
    optional members "span" .origin Span.ofJson? = some s :=
  optional_of_finds h id fun _ => Span.ofJson?_of_spelled

theorem Identifier.ofJson?_of_spelled {i : Identifier} (h : i.Spelled depth v) :
    Identifier.ofJson? v = some i := by
  obtain ⟨found, hfound, hname, hspan⟩ :=
    exists_record?_of_spelled ["name", "span"] rfl (by decide) h
  simp only [Identifier.ofJson?, hfound, text_of_finds hname, span_of_finds hspan,
    Option.bind_eq_bind, Option.bind_some]

theorem Formal.ofJson?_of_spelled {f : Formal} (h : f.Spelled depth v) :
    Formal.ofJson? v = some f := by
  obtain ⟨found, hfound, hname, htype, hspan⟩ :=
    exists_record?_of_spelled ["name", "type_name", "span"] rfl (by decide) h
  simp only [Formal.ofJson?, hfound, text_of_finds hname, text_of_finds htype, span_of_finds hspan,
    Option.bind_eq_bind, Option.bind_some]

theorem Method.ofJson?_of_spelled {m : Method} (h : m.Spelled depth v) :
    Method.ofJson? v = some m := by
  obtain ⟨found, hfound, -, hname, hformals, hreturn, hspan⟩ :=
    exists_record?_of_spelled ["kind", "name", "formals", "return_type", "span"] rfl (by decide) h
  have hformals : optional found "formals" [] (listOf? Formal.ofJson?) = some m.formals :=
    optional_of_finds hformals id fun _ hw =>
      listOf?_of_spelled hw fun _ _ => Formal.ofJson?_of_spelled
  simp only [Method.ofJson?, hfound, text_of_finds hname, hformals, text_of_finds hreturn,
    span_of_finds hspan, Option.bind_eq_bind, Option.bind_some]

theorem Attribute.ofJson?_of_spelled {a : Attribute} (h : a.Spelled depth v) :
    Attribute.ofJson? v = some a := by
  obtain ⟨found, hfound, -, hname, htype, hspan⟩ :=
    exists_record?_of_spelled ["kind", "name", "type_name", "span"] rfl (by decide) h
  simp only [Attribute.ofJson?, hfound, text_of_finds hname, text_of_finds htype,
    span_of_finds hspan, Option.bind_eq_bind, Option.bind_some]

/-! ## A feature is taken in as a whole

Its record, the list of formals, a formal and its span lie in one another, so there must be room
for four containers. -/

theorem isPlain_of_textField {name text : String} :
    ∀ w, (textField name text).Spelled w → w.isPlain depth = true := by
  rintro w rfl
  rfl

theorem Span.isPlain_of_spelled {s : Span} (h : s.Spelled (depth + 1) v) :
    v.isPlain (depth + 1) = true := by
  refine Json.isPlain_of_spelled h ⟨?_, ?_⟩
  · rintro w rfl
    exact isPlain_ofUInt32 _
  · rintro w rfl
    exact isPlain_ofUInt32 _

theorem Formal.isPlain_of_spelled {f : Formal} (h : f.Spelled (depth + 2) v) :
    v.isPlain (depth + 2) = true :=
  Json.isPlain_of_spelled h
    ⟨isPlain_of_textField, isPlain_of_textField, fun _ => Span.isPlain_of_spelled⟩

theorem Feature.isPlain_of_spelled {f : Feature} (h : f.Spelled (depth + 4) v) :
    v.isPlain (depth + 4) = true := by
  cases f with
  | ofMethod m =>
    have hformals : ∀ w, SpelledList (Formal.Spelled (depth + 2)) m.formals w →
        w.isPlain (depth + 3) = true := fun w hw =>
      isPlain_of_spelledList hw fun _ _ => Formal.isPlain_of_spelled
    exact Json.isPlain_of_spelled h ⟨isPlain_of_textField, isPlain_of_textField, hformals,
      isPlain_of_textField, fun _ => Span.isPlain_of_spelled⟩
  | ofAttribute a =>
    exact Json.isPlain_of_spelled h ⟨isPlain_of_textField, isPlain_of_textField,
      isPlain_of_textField, fun _ => Span.isPlain_of_spelled⟩

theorem Feature.ofJson?_of_spelled {f : Feature} (h : f.Spelled (depth + 4) v) :
    Feature.ofJson? (depth + 4) v = some f := by
  have hplain := Feature.isPlain_of_spelled h
  cases f with
  | ofMethod m =>
    have hkind : kind? v = some "method" :=
      kind?_of_spelled (by simp [kindField, textField, spanField]) h
    simp [Feature.ofJson?, hplain, hkind, Method.ofJson?_of_spelled h]
  | ofAttribute a =>
    have hkind : kind? v = some "attribute" :=
      kind?_of_spelled (by simp [kindField, textField, spanField]) h
    simp [Feature.ofJson?, hplain, hkind, Attribute.ofJson?_of_spelled h]

/-- Two more containers lie around a feature: its class and the list of features. -/
theorem ClassDeclaration.ofJson?_of_spelled {d : ClassDeclaration} (hdepth : 6 ≤ depth)
    (h : d.Spelled depth v) : ClassDeclaration.ofJson? depth v = some d := by
  obtain ⟨depth, rfl⟩ := Nat.exists_eq_add_of_le' hdepth
  obtain ⟨found, hfound, hname, hparent, hfeatures, hspan⟩ :=
    exists_record?_of_spelled ["name", "parent", "features", "span"] rfl (by decide) h
  have hname : required found "name" Identifier.ofJson? = some d.name :=
    required_of_finds hname not_false fun _ => Identifier.ofJson?_of_spelled
  have hparent : optional found "parent" none (nullable? Identifier.ofJson?) = some d.parent :=
    optional_of_finds hparent id fun _ hw =>
      nullable?_of_spelled hw rfl fun _ _ => Identifier.ofJson?_of_spelled
  have hfeatures : optional found "features" [] (listOf? (Feature.ofJson? (depth + 4)))
      = some d.features :=
    optional_of_finds hfeatures id fun _ hw =>
      listOf?_of_spelled hw fun _ _ => Feature.ofJson?_of_spelled
  have hdepth : depth + 6 - 2 = depth + 4 := rfl
  simp only [ClassDeclaration.ofJson?, hfound, hname, hparent, hdepth, hfeatures,
    span_of_finds hspan, Option.bind_eq_bind, Option.bind_some]

/-! ## The written form is one of the notations -/

theorem Span.spelled_toJson (s : Span) (depth : Nat) : s.Spelled depth s.toJson :=
  spelledRecord_ofMembers (.keep rfl (.keep rfl .nil))

theorem spelledMembers_span (s : Span) (depth : Nat) :
    SpelledMembers [spanField depth s] [("span", s.toJson)] :=
  .keep (s.spelled_toJson depth) .nil

theorem spelledList_map {Spelled : α → Json → Prop} {write : α → Json} (xs : List α)
    (h : ∀ x, Spelled x (write x)) : SpelledList Spelled xs (.array (xs.map write)) := by
  refine ⟨_, rfl, ?_⟩
  rw [List.forall₂_map_right_iff, List.forall₂_same]
  exact fun x _ => h x

theorem Identifier.spelled_toJson (i : Identifier) (depth : Nat) : i.Spelled depth i.toJson :=
  spelledRecord_ofMembers (.keep rfl (spelledMembers_span i.span _))

theorem Formal.spelled_toJson (f : Formal) (depth : Nat) : f.Spelled depth f.toJson :=
  spelledRecord_ofMembers (.keep rfl (.keep rfl (spelledMembers_span f.span _)))

theorem Feature.spelled_toJson (f : Feature) (depth : Nat) : f.Spelled depth f.toJson := by
  cases f with
  | ofMethod m =>
    have hformals := spelledList_map m.formals fun f => f.spelled_toJson (depth - 2)
    exact spelledRecord_ofMembers
      (.keep rfl (.keep rfl (.keep hformals (.keep rfl (spelledMembers_span m.span _)))))
  | ofAttribute a =>
    exact spelledRecord_ofMembers (.keep rfl (.keep rfl (.keep rfl (spelledMembers_span a.span _))))

theorem ClassDeclaration.spelled_toJson (d : ClassDeclaration) (depth : Nat) :
    d.Spelled depth d.toJson := by
  have hparent : SpelledOption (Identifier.Spelled (depth - 1)) d.parent
      (.ofOption Identifier.toJson d.parent) := by
    cases d.parent with
    | none => rfl
    | some i => exact i.spelled_toJson _
  have hfeatures := spelledList_map d.features fun f => f.spelled_toJson (depth - 2)
  have hspan := spelledMembers_span d.span (depth - 1)
  exact spelledRecord_ofMembers
    (.keep (d.name.spelled_toJson _) (.keep hparent (.keep hfeatures hspan)))

/-! ## The written text -/

theorem Span.readable_toJson (s : Span) : s.toJson.Readable := by
  exact readable_ofMembers ⟨readable_ofNat _, readable_ofNat _⟩

theorem Identifier.readable_toJson (i : Identifier) : i.toJson.Readable := by
  exact readable_ofMembers ⟨readable_ofString _, i.span.readable_toJson⟩

theorem Formal.readable_toJson (f : Formal) : f.toJson.Readable := by
  exact readable_ofMembers ⟨readable_ofString _, readable_ofString _, f.span.readable_toJson⟩

theorem Feature.readable_toJson (f : Feature) : f.toJson.Readable := by
  cases f with
  | ofMethod m =>
    have hformals : (Json.array (m.formals.map Formal.toJson)).Readable :=
      readable_array (List.forall_mem_map.2 fun f _ => f.readable_toJson)
    exact readable_ofMembers ⟨readable_ofString _, readable_ofString _, hformals,
      readable_ofString _, m.span.readable_toJson⟩
  | ofAttribute a =>
    exact readable_ofMembers ⟨readable_ofString _, readable_ofString _, readable_ofString _,
      a.span.readable_toJson⟩

theorem ClassDeclaration.readable_toJson (d : ClassDeclaration) : d.toJson.Readable := by
  have hparent : (Json.ofOption Identifier.toJson d.parent).Readable :=
    readable_ofOption Identifier.readable_toJson d.parent
  have hfeatures : (Json.array (d.features.map Feature.toJson)).Readable :=
    readable_array (List.forall_mem_map.2 fun f _ => f.readable_toJson)
  exact readable_ofMembers ⟨d.name.readable_toJson, hparent, hfeatures, d.span.readable_toJson⟩

/-- What is written for a declaration is the text of its full record, and reading the text gives the
declaration back. -/
theorem ClassDeclaration.ofText?_toText (d : ClassDeclaration) :
    Json.ofText? d.toText = some d.toJson ∧ ofText? d.toText = some d := by
  have htext : Json.ofText? d.toText = some d.toJson := ofText?_render d.readable_toJson
  have hrecord : ofJson? maxNesting d.toJson = some d :=
    ofJson?_of_spelled (by decide) (d.spelled_toJson maxNesting)
  refine ⟨htext, ?_⟩
  rw [ofText?, htext]
  exact hrecord

end CoolHierarchy
