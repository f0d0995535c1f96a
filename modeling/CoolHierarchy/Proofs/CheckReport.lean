import CoolHierarchy.Proofs.DeclarationNotation
import CoolHierarchy.Proofs.Opening
import CoolHierarchy.Proofs.Registration
import CoolHierarchy.Report.Check

/-!
# What a check reports

A printed value has no line break in it, whatever texts it holds, because a quoted text has its line
breaks escaped. So the lines of a report are the records of the errors, one for one
(`HierarchyError.ReportedBy`). A session without errors has taken in every declaration of its
program, so the number of classes that it names is the number of declarations.

* `check_reports`: what a check of an opened session prints, and when and how it fails.
-/

namespace CoolHierarchy

/-! ## Printed values have no line breaks -/

theorem ne_newline_of_isDigit {c : Char} (h : c.isDigit) : c ≠ '\n' := by
  rintro rfl
  revert h
  decide

theorem NumberLiteral.newline_not_mem_text {n : NumberLiteral} (h : n.Readable) :
    '\n' ∉ n.text := by
  have hdigits : ∀ k, '\n' ∉ Nat.toDigits 10 k := fun k hmem =>
    ne_newline_of_isDigit (Nat.isDigit_of_mem_toDigits (by decide) (by decide) hmem) rfl
  have hsign : '\n' ∉ (if n.negative then ['-'] else []) := by
    cases n.negative <;> decide
  have hfraction : '\n' ∉ fractionText n.fraction := by
    cases hds : n.fraction with
    | none => exact List.not_mem_nil
    | some ds =>
      intro hmem
      have hin : '\n' ∈ ds := (List.mem_cons.1 hmem).resolve_left (by decide)
      exact ne_newline_of_isDigit ((h ds hds).2 _ hin) rfl
  have hexponent : '\n' ∉ exponentText n.exponent := by
    rcases n.exponent with _ | e | e
    · exact List.not_mem_nil
    · exact List.not_mem_cons_of_ne_of_not_mem (by decide) (hdigits e)
    · exact List.not_mem_cons_of_ne_of_not_mem (by decide)
        (List.not_mem_cons_of_ne_of_not_mem (by decide) (hdigits (e + 1)))
  rw [text_eq]
  simp only [List.mem_append, not_or]
  exact ⟨⟨⟨hsign, hdigits n.whole⟩, hfraction⟩, hexponent⟩

namespace Json

theorem newline_not_mem_escape (c : Char) : '\n' ∉ escape c := by
  have hvalue : ∀ n < 16, '\n' ≠ Digits.ofValue n := by decide
  by_cases hshort : c ∈ ['"', '\\', '\x08', '\x0c', '\n', '\r', '\t']
  · simp only [List.mem_cons, List.not_mem_nil, or_false] at hshort
    rcases hshort with rfl | rfl | rfl | rfl | rfl | rfl | rfl <;> decide
  · simp only [List.mem_cons, List.not_mem_nil, or_false, not_or] at hshort
    obtain ⟨hquote, hbackslash, hb, hf, hn, hr, ht⟩ := hshort
    by_cases hcontrol : c < ' '
    · have hlt : c.toNat < 32 := hcontrol
      have hhigh := hvalue (c.toNat / 16) (by omega)
      have hlow := hvalue (c.toNat % 16) (by omega)
      simp [escape, hquote, hbackslash, hb, hf, hn, hr, ht, hcontrol, hhigh, hlow]
    · simp [escape, hquote, hbackslash, hb, hf, hr, ht, hcontrol, hn, Ne.symm hn]

theorem newline_not_mem_quote (text? : Option String) : '\n' ∉ quote text? := by
  cases text? with
  | none => decide
  | some s =>
    intro hmem
    have hin : '\n' ∈ s.toList.flatMap escape ++ ['"'] :=
      (List.mem_cons.1 hmem).resolve_left (by decide)
    rcases List.mem_append.1 hin with hin | hin
    · obtain ⟨c, _, hc⟩ := List.mem_flatMap.1 hin
      exact newline_not_mem_escape c hc
    · revert hin
      decide

theorem Token.newline_not_mem_text {t : Token} (h : t.Readable) : '\n' ∉ t.text := by
  cases t with
  | number n => exact NumberLiteral.newline_not_mem_text h
  | string text? => exact newline_not_mem_quote text?
  | bool b => cases b <;> decide
  | _ => decide

theorem newline_not_mem_render {v : Json} (h : v.Readable) : '\n' ∉ v.render.toList := by
  unfold render
  rw [String.toList_ofList]
  intro hmem
  obtain ⟨t, ht, hin⟩ := List.mem_flatMap.1 hmem
  exact Token.newline_not_mem_text (h t ht) hin

end Json

/-! ## The record of an error -/

/-- A line that has no other line break in it, and which is read as the record of an error. -/
structure HierarchyError.ReportedBy (e : HierarchyError) (file line : String) : Prop where
  oneLine : '\n' ∉ line.toList
  read : Json.ofText? line = some (.ofMembers [("code", .ofString e.code),
    ("file", .ofString file), ("hint", .ofOption .ofString e.hint?),
    ("message", .ofString e.message), ("severity", .ofString "error"),
    ("span_end", .ofNat e.span.stop.toNat), ("span_start", .ofNat e.span.start.toNat)])

theorem Diagnostic.readable_toJson (d : Diagnostic) (file : String) :
    (d.toJson file).Readable := by
  have hoption := Json.readable_ofOption Json.readable_ofString
  exact Json.readable_ofMembers ⟨hoption d.code, Json.readable_ofString _, hoption d.hint,
    Json.readable_ofString _, Json.readable_ofString _, Json.readable_ofNat _,
    Json.readable_ofNat _⟩

theorem HierarchyError.reportedBy_render (e : HierarchyError) (file : String) :
    e.ReportedBy file (e.toDiagnostic.toJson file).render where
  oneLine := Json.newline_not_mem_render (e.toDiagnostic.readable_toJson file)
  read := Json.ofText?_render (e.toDiagnostic.readable_toJson file)

namespace Session

variable {s : Session}

/-! ## The verdict -/

/-- All that an analysis reports are errors. -/
theorem errorCount_eq (s : Session) : s.errorCount = s.analysis.errors.length := by
  have hall : s.analysis.diagnostics.filter Diagnostic.isError = s.analysis.diagnostics := by
    rw [List.filter_eq_self]
    intro d hd
    obtain ⟨e, _, rfl⟩ := List.mem_map.1 hd
    rfl
  unfold errorCount
  rw [hall, Analysis.diagnostics, List.length_map]

theorem failureMessage_eq (s : Session) : s.failureMessage =
    toString s.errorCount ++ (if s.errorCount = 1 then " error" else " errors") ++
      " found in '" ++ s.title ++ "'" := by
  have hword : " error" ++ (if s.errorCount == 1 then "" else "s") =
      if s.errorCount = 1 then " error" else " errors" := by
    by_cases h : s.errorCount = 1
    · simp [h]
    · simp [h]
  rw [← hword, ← String.append_assoc]
  rfl

/-- A check fails when there are errors, in either format. -/
theorem failure_check (s : Session) (format : ReportFormat) : (s.check format).failure =
    if s.errorCount = 0 then none else some s.failureMessage := by
  unfold check
  by_cases h : s.errorCount = 0
  · cases format <;> simp [h]
  · cases format <;> simp [h, Nat.pos_of_ne_zero h]

theorem output_check_json (s : Session) : (s.check .json).output =
    String.join (s.analysis.diagnostics.map s.jsonLine) := by
  unfold check
  by_cases h : s.errorCount > 0
  · simp only [if_pos h]
  · simp only [if_neg h]

theorem output_check_text (h : s.errorCount = 0) : (s.check .text).output =
    s.title ++ ": " ++ toString s.classCount ++ " classes checked, no errors\n" := by
  unfold check
  simp only [h]
  rfl

/-! ## Opened sessions -/

/-- What a session that is opened has analysed are the declarations of its program file. -/
theorem exists_record_of_openAt {look : String → Entry} {path : String}
    {entryClass : Option String} (h : openAt (m := Id) look path entryClass = .ok s) :
    ∃ record entry, Program.recordOf path (look path) = .ok record ∧
      s.analysis = .build entry record.classes := by
  rw [openAt_eq] at h
  split at h
  · cases h
  · cases h
  · next record manifest hrecord _ =>
    cases h
    exact ⟨record, (manifest.getD {}).entryClassWith entryClass, hrecord, rfl⟩

end Session

namespace Analysis

variable {entryClass : String} {ds : List ClassDeclaration}

/-- The basic classes are among the classes of every hierarchy. -/
theorem length_all_le_size_build :
    Builtin.all.length ≤ (build entryClass ds).hierarchy.size := by
  show _ ≤ (Registry.addAll { entryClass } ds).size
  rw [Registry.size_eq]
  exact Nat.le_add_right _ _

/-- An analysis without errors has taken in every declaration. -/
theorem size_build_of_errors_eq_nil (h : (build entryClass ds).errors = []) :
    (build entryClass ds).hierarchy.size = Builtin.all.length + ds.length := by
  have hrefused : (Registry.addAll { entryClass } ds).errors.toList = [] := by
    simp only [build, Registry.analyze, List.append_eq_nil_iff] at h
    exact h.1.1.1
  have hsize := Registry.size_addAll { entryClass } ds
  have herrors : (Registry.addAll { entryClass } ds).errors.size = 0 := by
    rw [← Array.length_toList, hrefused]
    rfl
  rw [herrors] at hsize
  exact hsize

end Analysis

/-- The classes that a session without errors counts are the declarations. -/
theorem Session.classCount_of_errors_eq_nil {s : Session} {entryClass : String}
    {ds : List ClassDeclaration} (hanalysis : s.analysis = .build entryClass ds)
    (herrors : s.analysis.errors = []) : s.classCount = ds.length := by
  have hsize : s.hierarchy.size = Builtin.all.length + ds.length := by
    unfold Session.hierarchy
    rw [hanalysis] at herrors ⊢
    exact Analysis.size_build_of_errors_eq_nil herrors
  unfold classCount
  rw [hsize, Nat.add_sub_cancel_left]

/-! ## Opening a program -/

/-- A program file with the records of declarations. -/
def ProgramRecord.toJson (ds : List ClassDeclaration) : Json :=
  .ofMembers [("classes", .array (ds.map ClassDeclaration.toJson))]

theorem ProgramRecord.ofJson?_toJson (ds : List ClassDeclaration) :
    ofJson? (toJson ds) = some { classes := ds } := by
  have hclasses : Json.listOf? (ClassDeclaration.ofJson? (maxNesting - 2))
      (.array (ds.map ClassDeclaration.toJson)) = some ds :=
    Json.listOf?_of_spelled (spelledList_map ds fun d => d.spelled_toJson (maxNesting - 2))
      fun _ _ => ClassDeclaration.ofJson?_of_spelled (by decide)
  simp [ofJson?, toJson, Json.ofMembers, Json.record?, Json.optional, Json.required,
    List.lookup_cons, hclasses]

theorem Program.recordOf_text (path : String) (ds : List ClassDeclaration) :
    recordOf path (.text (ProgramRecord.toJson ds).render) = .ok { classes := ds } := by
  have hreadable : (ProgramRecord.toJson ds).Readable :=
    Json.readable_ofMembers <| Json.readable_array <|
      List.forall_mem_map.2 fun d _ => d.readable_toJson
  have hread : ProgramRecord.ofText? (ProgramRecord.toJson ds).render = some { classes := ds } := by
    rw [ProgramRecord.ofText?, Json.ofText?_render hreadable, Option.bind_eq_bind,
      Option.bind_some, ProgramRecord.ofJson?_toJson]
  simp only [recordOf, Entry.text?, hread]

/-- Opens a program that names no source, where there is no manifest. -/
theorem Session.openAt_of_recordOf {look : String → Entry} {path : String}
    {entryClass : Option String} {ds : List ClassDeclaration}
    (hrecord : Program.recordOf path (look path) = .ok { classes := ds })
    (hmanifest : look (Path.join (Program.rootOf path) Manifest.fileName) = .missing) :
    openAt (m := Id) look path entryClass =
      .ok (ofParts { path, classes := ds, source := none } {} entryClass) := by
  have hnone : Manifest.ofEntry (Manifest.pathFor path) (look (Manifest.pathFor path)) = .ok none :=
    congrArg (Manifest.ofEntry _) hmanifest
  rw [openAt_eq, hrecord, hnone]
  rfl

/-! ## The report -/

/-- A check of an opened session reports every error once, as a line that is read as its record, and
fails when there are errors, in either format. Without errors it says how many classes there are,
which is the number of declarations in the program file. -/
theorem check_reports (look : String → Entry) (path : String) (entryClass : Option String)
    (s : Session) (hopen : Session.openAt (m := Id) look path entryClass = .ok s) :
    let errors := s.analysis.errors
    let k := errors.length
    (∃ lines, (s.check .json).output = String.join (lines.map (· ++ "\n")) ∧
      List.Forall₂ (fun e line => e.ReportedBy s.program.sourceName line) errors lines) ∧
    (∀ format, (s.check format).failure =
      if k = 0 then none
      else some (toString k ++ (if k = 1 then " error" else " errors") ++ " found in '" ++
        s.title ++ "'")) ∧
    Builtin.all.length ≤ s.hierarchy.size ∧
    (k = 0 → (s.check .json).output = "" ∧
      ∃ record, Program.recordOf path (look path) = .ok record ∧
        (s.check .text).output = s.title ++ ": " ++ toString record.classes.length ++
          " classes checked, no errors\n") := by
  intro errors k
  obtain ⟨record, entry, hrecord, hanalysis⟩ := Session.exists_record_of_openAt hopen
  have hcount : s.errorCount = k := s.errorCount_eq
  refine ⟨⟨errors.map fun e => (e.toDiagnostic.toJson s.program.sourceName).render, ?_, ?_⟩,
    ?_, ?_, ?_⟩
  · rw [s.output_check_json, Analysis.diagnostics, List.map_map, List.map_map]
    rfl
  · rw [List.forall₂_map_right_iff, List.forall₂_same]
    exact fun e _ => e.reportedBy_render _
  · intro format
    rw [s.failure_check, s.failureMessage_eq, hcount]
  · unfold Session.hierarchy
    rw [hanalysis]
    exact Analysis.length_all_le_size_build
  · intro hk
    have hnil : errors = [] := List.length_eq_zero_iff.1 hk
    refine ⟨?_, record, hrecord, ?_⟩
    · rw [s.output_check_json, Analysis.diagnostics]
      show String.join ((errors.map _).map _) = ""
      rw [hnil]
      rfl
    · rw [Session.output_check_text (hcount.trans hk),
        Session.classCount_of_errors_eq_nil hanalysis hnil]

/-- A class whose name has a line break and quotes in it, below a class that does not exist. -/
def oddNames : List ClassDeclaration :=
  [.inheriting (.named "A\n\"B\"") "C\r\n"]

/-- A place with nothing but the program. -/
def oddLook (path : String) : Entry :=
  if path = "odd.json" then .text (ProgramRecord.toJson oddNames).render else .missing

def oddSession : Session :=
  .ofParts { path := "odd.json", classes := oddNames, source := none } {} none

theorem openAt_oddLook : Session.openAt (m := Id) oddLook "odd.json" none = .ok oddSession := by
  have hprogram : oddLook "odd.json" = .text (ProgramRecord.toJson oddNames).render := if_pos rfl
  have hmanifest : oddLook (Path.join "." Manifest.fileName) = .missing := if_neg (by decide)
  refine Session.openAt_of_recordOf ?_ hmanifest
  rw [hprogram]
  exact Program.recordOf_text "odd.json" oddNames

/-- Two errors are reported, each in a line of its own: the parent does not exist, and no class is
the entry class. -/
theorem check_reports_oddSession :
    Session.openAt (m := Id) oddLook "odd.json" none = .ok oddSession ∧
      oddSession.analysis.errors.map HierarchyError.fault =
        [.undeclaredParent "A\n\"B\"" "C\r\n", .missingEntry "Main"] ∧
      (∃ first second, (oddSession.check .json).output =
        String.join [first ++ "\n", second ++ "\n"] ∧
          '\n' ∉ first.toList ∧ '\n' ∉ second.toList) ∧
      (oddSession.check .text).failure = some "2 errors found in 'odd.json'" := by
  obtain ⟨⟨lines, houtput, hlines⟩, hfailure, _, _⟩ :=
    check_reports oddLook "odd.json" none oddSession openAt_oddLook
  have hfaults : oddSession.analysis.errors.map HierarchyError.fault =
      [.undeclaredParent "A\n\"B\"" "C\r\n", .missingEntry "Main"] := by
    decide +kernel
  have hlength : oddSession.analysis.errors.length = 2 := by
    rw [← List.length_map HierarchyError.fault, hfaults]
    rfl
  obtain ⟨e, e', herrors⟩ := List.length_eq_two.1 hlength
  rw [herrors] at hlines
  cases hlines with
  | cons hfirst hrest =>
    cases hrest with
    | cons hsecond hrest =>
      cases hrest
      refine ⟨openAt_oddLook, hfaults, ⟨_, _, houtput, hfirst.oneLine, hsecond.oneLine⟩, ?_⟩
      have hverdict := hfailure .text
      have htitle : oddSession.title = "odd.json" := rfl
      rw [hlength, htitle] at hverdict
      exact hverdict.trans (by decide)

end CoolHierarchy
