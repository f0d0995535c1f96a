import CoolHierarchy.Json.Printer
import CoolHierarchy.Session

/-!
# Reports on the errors of a program

A check reports every error and fails if there is one. In the format for machines each error is a
line of JSON, with its members in the order of their names; in the format for readers only the
verdict on a program without errors goes to the output.
-/

namespace CoolHierarchy

inductive ReportFormat where
  | text
  | json
deriving DecidableEq, Repr, Inhabited

namespace ReportFormat

def ofName? : String → Option ReportFormat
  | "text" => some text
  | "json" => some json
  | _ => none

def unknownMessage (name : String) : String :=
  s!"unknown format '{name}': expected 'text' or 'json'"

end ReportFormat

/-- What a command prints, and why it fails if it does. -/
structure Outcome where
  output : String := ""
  failure : Option String := none
deriving DecidableEq, Repr, Inhabited

/-- A diagnostic as a record for machines. -/
def Diagnostic.toJson (d : Diagnostic) (file : String) : Json :=
  .ofMembers [("code", .ofOption .ofString d.code), ("file", .ofString file),
    ("hint", .ofOption .ofString d.hint), ("message", .ofString d.message),
    ("severity", .ofString d.severity.name), ("span_end", .ofNat d.span.stop.toNat),
    ("span_start", .ofNat d.span.start.toNat)]

namespace Session

def jsonLine (s : Session) (d : Diagnostic) : String :=
  (d.toJson s.program.sourceName).render ++ "\n"

def errorCount (s : Session) : Nat :=
  (s.analysis.diagnostics.filter Diagnostic.isError).length

/-- Number of classes besides the basic ones. -/
def classCount (s : Session) : Nat :=
  s.hierarchy.size - Builtin.all.length

/-- The verdict on a program with errors. -/
def failureMessage (s : Session) : String :=
  let plural := if s.errorCount == 1 then "" else "s"
  s!"{s.errorCount} error{plural} found in '{s.title}'"

def check (s : Session) (format : ReportFormat) : Outcome :=
  let lines := match format with
    | .text => ""
    | .json => String.join (s.analysis.diagnostics.map s.jsonLine)
  if s.errorCount > 0 then { output := lines, failure := some s.failureMessage }
  else match format with
    | .text => { output := s!"{s.title}: {s.classCount} classes checked, no errors\n" }
    | .json => { output := lines }

end Session

end CoolHierarchy
