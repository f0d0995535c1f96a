import CoolHierarchy.Command
import CoolHierarchy.Proofs.CheckReport
import Mathlib.Data.List.Infix

/-!
# The source that a program names

The source is read to show where an error lies, and for nothing else. Whether it can be read, and
what it says, changes no result: two sessions of one program whose sources differ answer every
question alike, and only the file that the records of a check name may be another.

This holds as long as the source is not on the way to the program or to its manifest. A way may lead
through a directory and back out of it, and such a detour fails when the directory is not there.

* `source_does_not_interfere`: two places that differ in the source at most open a program alike.
* `source_on_detour`: a program that can be opened only where its source is a directory.
-/

namespace CoolHierarchy

/-! ## The way that a path takes -/

namespace Disk

variable {d d' : Disk} {hidden place : List String} {path : String}

/-- The places that segments lead through. -/
def passedFrom (place : List String) : List String → List (List String)
  | [] => [place]
  | segment :: rest => place ::
    if Path.isIdle segment then passedFrom place rest
    else if segment == ".." then passedFrom place.dropLast rest
    else passedFrom (place ++ [segment]) rest

/-- The places that a path leads through, from the top to where it leads. -/
def passed (d : Disk) (path : String) : List (List String) :=
  passedFrom [] (d.way path)

/-- Two disks with one working directory that differ at one place and below it at most. -/
structure SameBut (hidden : List String) (d d' : Disk) : Prop where
  home : d.home = d'.home
  entryAt : ∀ place, ¬ hidden <+: place → d.entryAt place = d'.entryAt place

theorem SameBut.symm (h : SameBut hidden d d') : SameBut hidden d' d :=
  ⟨h.home.symm, fun place hplace => (h.entryAt place hplace).symm⟩

theorem SameBut.trans {d'' : Disk} (h : SameBut hidden d d') (h' : SameBut hidden d' d'') :
    SameBut hidden d d'' :=
  ⟨h.home.trans h'.home, fun place hplace =>
    (h.entryAt place hplace).trans (h'.entryAt place hplace)⟩

/-- What is put under a path makes a difference there and below, if the directories on the way to it
exist. -/
theorem sameBut_put {entry : Entry} (hpath : d.placeOf path = hidden)
    (h : ∀ place ∈ hidden.inits, place ≠ hidden → d.entryAt place ≠ .missing) :
    SameBut hidden d (d.put path entry) := by
  subst hpath
  refine ⟨rfl, fun place hplace => ?_⟩
  have hne : place ≠ d.placeOf path := by
    rintro rfl
    exact hplace (List.prefix_refl _)
  have hlookup : (d.put path entry).entries.lookup place = d.entries.lookup place := by
    show ((d.placeOf path, entry) :: d.entries).lookup place = _
    rw [List.lookup_cons, beq_false_of_ne hne]
  unfold Disk.entryAt
  rw [hlookup]
  cases hentry : d.entries.lookup place with
  | some e => rfl
  | none =>
    have hsame : (place.isPrefixOf (d.put path entry).home ||
          (d.put path entry).entries.any (place.isPrefixOf ·.1)) =
        (place.isPrefixOf d.home || d.entries.any (place.isPrefixOf ·.1)) := by
      show (place.isPrefixOf d.home || (place.isPrefixOf (d.placeOf path) || d.entries.any _)) = _
      by_cases hway : place <+: d.placeOf path
      · have hexists := h place ((List.mem_inits _ _).2 hway) hne
        have htrue : (place.isPrefixOf d.home || d.entries.any (place.isPrefixOf ·.1)) = true := by
          by_contra hfalse
          exact hexists (by simp only [Disk.entryAt, hentry, if_neg hfalse])
        rw [Bool.or_left_comm, htrue, Bool.or_true]
      · rw [Bool.eq_false_iff.2 (mt List.isPrefixOf_iff_prefix.1 hway), Bool.false_or]
    simp only [hsame]

theorem mem_passedFrom_self (place segments : List String) : place ∈ passedFrom place segments := by
  cases segments with
  | nil => exact List.mem_singleton_self _
  | cons segment rest => exact List.mem_cons_self

/-- A walk that starts outside of a place gets below it through that place only. -/
theorem SameBut.follow_eq {segments : List String} (hsame : SameBut hidden d d')
    (hplace : ¬ hidden <+: place) (h : hidden ∉ passedFrom place segments) :
    d.follow place segments = d'.follow place segments := by
  induction segments generalizing place with
  | nil => exact hsame.entryAt place hplace
  | cons segment rest ih =>
    replace h := mt (List.mem_cons_of_mem place) h
    unfold follow
    rw [hsame.entryAt place hplace]
    cases d'.entryAt place with
    | directory =>
      by_cases hidle : Path.isIdle segment
      · simp only [hidle, if_true] at h ⊢
        exact ih hplace h
      · by_cases hup : segment == ".."
        · simp only [hidle, hup, if_true, Bool.false_eq_true, if_false] at h ⊢
          have hout : ¬ hidden <+: place.dropLast :=
            fun hin => hplace (hin.trans (List.dropLast_prefix place))
          exact ih hout h
        · simp only [hidle, hup, Bool.false_eq_true, if_false] at h ⊢
          have hout : ¬ hidden <+: place ++ [segment] := by
            rw [List.prefix_concat_iff, not_or]
            refine ⟨?_, hplace⟩
            rintro rfl
            exact h (mem_passedFrom_self _ rest)
          rw [ih hout h]
    | _ => rfl

/-- What is found under a path does not depend on a place that the path does not lead through. -/
theorem SameBut.look_eq (hsame : SameBut hidden d d') (h : hidden ∉ d.passed path) :
    d.look path = d'.look path := by
  have htop : ¬ hidden <+: [] := by
    rw [List.prefix_nil]
    rintro rfl
    exact h (mem_passedFrom_self _ _)
  have hway : d.way path = d'.way path := by
    unfold way
    rw [hsame.home]
  unfold look
  rw [← hway, hsame.follow_eq htop h]

end Disk

/-! ## Records that name another file -/

/-- An object with another value for one of its members. -/
def Json.withMember (v : Json) (name : String) (value : Json) : Json :=
  match v with
  | .object members => .object (members.map fun m => if m.1 = some name then (m.1, value) else m)
  | v => v

/-- Values with one line for each. -/
def Json.lines (vs : List Json) : String :=
  String.join (vs.map fun v => v.render ++ "\n")

theorem Diagnostic.withMember_toJson (d : Diagnostic) (file file' : String) :
    (d.toJson file).withMember "file" (.ofString file') = d.toJson file' := by
  simp [toJson, Json.ofMembers, Json.withMember]

theorem Diagnostic.get?_toJson (d : Diagnostic) (file : String) :
    (d.toJson file).get? "file" = some (.ofString file) := by
  simp [toJson, Json.ofMembers, Json.get?]

namespace Session

/-- The records of a check. -/
def records (s : Session) : List Json :=
  s.analysis.diagnostics.map fun d => d.toJson s.program.sourceName

theorem output_check_json_eq_lines (s : Session) :
    (s.check .json).output = Json.lines s.records := by
  rw [output_check_json, Json.lines, records, List.map_map]
  rfl

/-! ## Sessions with another source -/

/-- Two sessions that answer alike, except that the records of a check name the file of the session
that is asked. -/
structure AnswersAlike (s s' : Session) : Prop where
  title : s.title = s'.title
  hierarchy : s.hierarchy = s'.hierarchy
  errors : s.analysis.errors = s'.analysis.errors
  failure : ∀ command : Command, (command.run s).failure = (command.run s').failure
  output : ∀ command : Command, command ≠ .check .json →
    (command.run s).output = (command.run s').output
  records : ∃ records : List Json,
    ((Command.check .json).run s).output = Json.lines records ∧
    ((Command.check .json).run s').output =
      Json.lines (records.map (·.withMember "file" (.ofString s'.program.sourceName))) ∧
    ∀ r ∈ records, r.get? "file" = some (.ofString s.program.sourceName)

def withSource (s : Session) (source : Option SourceText) : Session :=
  { s with program := { s.program with source } }

theorem answersAlike_withSource (s : Session) (source : Option SourceText) :
    s.AnswersAlike (s.withSource source) where
  title := rfl
  hierarchy := rfl
  errors := rfl
  failure
    | .check format => by
      show (s.check format).failure = ((s.withSource source).check format).failure
      rw [failure_check, failure_check]
      rfl
    | .hierarchy | .conforms _ _ | .join _ _ | .layout none | .layout (some _) => rfl
  output
    | .check .json => fun h => absurd rfl h
    | .check .text | .hierarchy | .conforms _ _ | .join _ _ | .layout none | .layout (some _) =>
      fun _ => rfl
  records := by
    refine ⟨s.records, s.output_check_json_eq_lines, ?_, ?_⟩
    · show ((s.withSource source).check .json).output = _
      rw [output_check_json_eq_lines]
      refine congrArg Json.lines ?_
      rw [records, records, List.map_map]
      exact List.map_congr_left fun d _ => (d.withMember_toJson _ _).symm
    · exact List.forall_mem_map.2 fun d _ => d.get?_toJson _

end Session

/-! ## Opening with another source -/

/-- The file that errors are reported in: the source, if one is named and can be read, and else the
program. -/
def ProgramRecord.reportedFile (look : String → Entry) (path : String) (record : ProgramRecord) :
    String :=
  match record.source with
  | none => path
  | some name =>
    if (look (Program.sourcePathFor path name)).text?.isSome then Program.sourcePathFor path name
    else path

theorem Program.sourceName_ofRecord (look : String → Entry) (path : String)
    (record : ProgramRecord) :
    (Program.ofRecord look path record).sourceName = record.reportedFile look path := by
  obtain ⟨source, classes⟩ := record
  cases source with
  | none => rfl
  | some name =>
    simp only [sourceName, ofRecord, sourceIn, ProgramRecord.reportedFile, Option.bind_eq_bind,
      Option.bind_some]
    cases (look (sourcePathFor path name)).text? <;> rfl

namespace Session

/-- A program is opened alike in two places: it fails with one message, or both sessions answer
alike. -/
def OpenedAlike (look look' : String → Entry) (path : String) (asked : Option String) : Prop :=
  match openAt (m := Id) look path asked, openAt (m := Id) look' path asked with
  | .error e, .error e' => e.message = e'.message
  | .ok s, .ok s' => s.AnswersAlike s' ∧
    ∃ record, Program.recordOf path (look path) = .ok record ∧
      s.program.sourceName = record.reportedFile look path ∧
      s'.program.sourceName = record.reportedFile look' path
  | _, _ => False

theorem openedAlike_of_look_eq {look look' : String → Entry} {path : String}
    (asked : Option String) (hprogram : look path = look' path)
    (hmanifest : look (Manifest.pathFor path) = look' (Manifest.pathFor path)) :
    OpenedAlike look look' path asked := by
  unfold OpenedAlike
  rw [openAt_eq, openAt_eq, ← hprogram, ← hmanifest]
  cases Program.recordOf path (look path) with
  | error e => rfl
  | ok record =>
    cases Manifest.ofEntry (Manifest.pathFor path) (look (Manifest.pathFor path)) with
    | error e => rfl
    | ok manifest =>
      exact ⟨answersAlike_withSource _ (Program.sourceIn look' path record), record, rfl,
        Program.sourceName_ofRecord look path record, Program.sourceName_ofRecord look' path record⟩

end Session

/-- Places where the same is found under the path of a program and under that of its manifest open
the program alike. Two disks are such places when they have one working directory and differ at one
place at most, as that of the source, and below it, and neither path leads through that place. -/
theorem source_does_not_interfere (path : String) (asked : Option String) :
    (∀ look look' : String → Entry,
      (∀ p ∈ [path, Manifest.pathFor path], look p = look' p) →
      Session.OpenedAlike look look' path asked) ∧
    ∀ (hidden : List String) (disk disk' : Disk), Disk.SameBut hidden disk disk' →
      (∀ p ∈ [path, Manifest.pathFor path], hidden ∉ disk.passed p) →
      Session.OpenedAlike disk.look disk'.look path asked := by
  have hlooks (look look' : String → Entry)
      (h : ∀ p ∈ [path, Manifest.pathFor path], look p = look' p) :
      Session.OpenedAlike look look' path asked := by
    have hprogram := h path (by simp)
    have hmanifest := h (Manifest.pathFor path) (by simp)
    exact Session.openedAlike_of_look_eq asked hprogram hmanifest
  refine ⟨hlooks, ?_⟩
  intro hidden disk disk' hsame hpassed
  exact hlooks disk.look disk'.look fun p hp => hsame.look_eq (hpassed p hp)

/-- A program that names a source, and whose only class has an unknown parent. -/
def orphanProgram : Disk :=
  ({} : Disk).put "program.json" (.text ("\x7b\"source\":\"main.cl\",\"classes\":" ++
    "[\x7b\"name\":[\"A\",[6,7]],\"parent\":[\"B\",[17,18]]\x7d]\x7d"))

def shownProgram : Disk :=
  orphanProgram.put "main.cl" (.text "class A inherits B \x7b\x7d;")

def garbledProgram : Disk :=
  orphanProgram.put "main.cl" .binary

/-- The source can be read in the one place and not in the other. Both sessions report that the
parent does not exist and that no class is the entry class. It makes no difference whether the
program is opened from the working directory or from the top. -/
theorem source_does_not_interfere_orphanProgram :
    (∀ path ∈ ["program.json", "/work/program.json"],
      Session.OpenedAlike shownProgram.look garbledProgram.look path none) ∧
    (Session.openOn shownProgram "program.json" none).toOption.map
      (fun s => (s.program.sourceName, s.analysis.errors.map HierarchyError.fault)) =
        some ("./main.cl", [.undeclaredParent "A" "B", .missingEntry "Main"]) ∧
    (Session.openOn garbledProgram "program.json" none).toOption.map
      (fun s => (s.program.sourceName, s.analysis.errors.map HierarchyError.fault)) =
        some ("program.json", [.undeclaredParent "A" "B", .missingEntry "Main"]) ∧
    (Session.openOn shownProgram "/work/program.json" none).toOption.map
      (fun s => s.program.sourceName) = some "/work/main.cl" := by
  have hput (entry : Entry) :
      Disk.SameBut ["work", "main.cl"] orphanProgram (orphanProgram.put "main.cl" entry) :=
    Disk.sameBut_put (by decide +kernel) (by decide +kernel)
  have hsame : Disk.SameBut ["work", "main.cl"] shownProgram garbledProgram :=
    (hput _).symm.trans (hput _)
  refine ⟨fun path hpath => ?_, by decide +kernel, by decide +kernel, by decide +kernel⟩
  refine (source_does_not_interfere path none).2 ["work", "main.cl"] _ _ hsame ?_
  revert path
  decide +kernel

/-! ## A detour through the source -/

/-- A path that leads through the directory `src` and back out of it. -/
def detour : String := "lib/../src/../p.json"

/-- A program that names `src` as its source, where there is nothing of this name. -/
def detourProgram : Disk :=
  let program := "\x7b\"source\":\"src\",\"classes\":[]\x7d"
  (({} : Disk).put "p.json" (.text program)).put "lib" .directory

/-- With a directory in the place of the source a program is opened that can not be read without it,
although neither the program nor its manifest lies there, below or above. -/
theorem source_on_detour :
    let furnished := detourProgram.put "src" .directory
    Disk.SameBut ["work", "src"] detourProgram furnished ∧
    ((Program.recordOf detour (furnished.look detour)).toOption.bind (·.source)) = some "src" ∧
    (detourProgram.passed (Program.sourcePathFor detour "src")).getLast? = some ["work", "src"] ∧
    (detourProgram.passed detour).getLast? = some ["work", "p.json"] ∧
    (detourProgram.passed (Manifest.pathFor detour)).getLast? = some ["work", "coolc.toml"] ∧
    (Session.openOn furnished detour none).isOk ∧
    Session.openOn detourProgram detour none = .error (.program (.read detour)) ∧
    ¬ Session.OpenedAlike detourProgram.look furnished.look detour none := by
  intro furnished
  have hopened : (Session.openOn furnished detour none).isOk := by decide +kernel
  have hfailed : Session.openOn detourProgram detour none = .error (.program (.read detour)) := by
    have hmissing : detourProgram.look detour = .missing := by decide +kernel
    rw [Session.openOn, Session.openAt_eq, hmissing]
    rfl
  refine ⟨Disk.sameBut_put (by decide +kernel) (by decide +kernel), by decide +kernel,
    by decide +kernel, by decide +kernel, by decide +kernel, hopened, hfailed, ?_⟩
  intro halike
  unfold Session.OpenedAlike at halike
  rw [Session.openOn] at hopened hfailed
  rw [hfailed] at halike
  cases hs : Session.openAt (m := Id) furnished.look detour none with
  | error e =>
    rw [hs] at hopened
    cases hopened
  | ok s =>
    rw [hs] at halike
    exact halike

end CoolHierarchy
