import CoolHierarchy.Session

/-!
# What opening a program looks at

Opening a program looks under three paths at most. Where a look-up is a plain function, a session is
put together from what it shows there: the program file and the manifest decide whether there is
one, and the source is only carried along.

* `Session.openAt_eq`: the session that is opened, or the error in its place.
-/

namespace CoolHierarchy

/-- Where the manifest for a program file lies. -/
def Manifest.pathFor (path : String) : String :=
  Path.join (Program.rootOf path) fileName

namespace Program

/-- Where the source lies that a program file names. -/
def sourcePathFor (path name : String) : String :=
  Path.join (rootOf path) name

/-- The source that a record names, if it can be read. -/
def sourceIn (look : String → Entry) (path : String) (record : ProgramRecord) :
    Option SourceText := do
  let name ← record.source
  let text ← (look (sourcePathFor path name)).text?
  some { path := sourcePathFor path name, text }

/-- The program of a record that is found under a path. -/
def ofRecord (look : String → Entry) (path : String) (record : ProgramRecord) : Program :=
  { path, classes := record.classes, source := sourceIn look path record }

theorem load_eq (look : String → Entry) (path : String) :
    load (m := Id) look path = (recordOf path (look path)).map (ofRecord look path) := by
  unfold load
  simp only [bind, pure]
  cases recordOf path (look path) with
  | error e => rfl
  | ok record =>
    obtain ⟨source, classes⟩ := record
    cases source with
    | none => rfl
    | some name =>
      show Except.ok _ = Except.ok (ofRecord look path _)
      simp only [ofRecord, sourceIn, sourcePathFor, Option.bind_eq_bind, Option.bind_some]
      cases (look (Path.join (rootOf path) name)).text? <;> rfl

end Program

/-- The record of the program and its manifest decide what a session is, and the program comes
first. -/
theorem Session.openAt_eq (look : String → Entry) (path : String) (asked : Option String) :
    openAt (m := Id) look path asked =
      match Program.recordOf path (look path),
        Manifest.ofEntry (Manifest.pathFor path) (look (Manifest.pathFor path)) with
      | .error e, _ => .error (.program e)
      | .ok _, .error e => .error (.manifest e)
      | .ok record, .ok manifest =>
        .ok (ofParts (.ofRecord look path record) (manifest.getD {}) asked) := by
  unfold openAt
  simp only [bind, pure, Program.load_eq]
  cases Program.recordOf path (look path) with
  | error e => rfl
  | ok record =>
    have hfind : Manifest.find (m := Id) look (Program.ofRecord look path record).projectRoot =
        Manifest.ofEntry (Manifest.pathFor path) (look (Manifest.pathFor path)) := rfl
    simp only [Except.map, hfind]
    cases Manifest.ofEntry (Manifest.pathFor path) (look (Manifest.pathFor path)) <;> rfl

end CoolHierarchy
