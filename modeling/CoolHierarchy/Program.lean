import CoolHierarchy.Declaration.Decode
import CoolHierarchy.Disk
import CoolHierarchy.Path

/-!
# Program files

A program file holds the declarations of a program, and may name the file that they were parsed
from. That file is only read to show where an error lies, so it does no harm when it can not be
read.
-/

namespace CoolHierarchy

structure ProgramRecord where
  source : Option String := none
  classes : List ClassDeclaration
deriving DecidableEq, Repr, Inhabited

namespace ProgramRecord

/-- Reads the record of a program. The program and the list of its classes are containers around
every declaration. -/
def ofJson? (v : Json) : Option ProgramRecord := do
  let fields ← v.record? ["source", "classes"]
  let source ← Json.optional fields "source" none (Json.nullable? Json.asString?)
  let classes ← Json.required fields "classes"
    (Json.listOf? (ClassDeclaration.ofJson? (maxNesting - 2)))
  some { source, classes }

def ofText? (text : String) : Option ProgramRecord := do
  ofJson? (← Json.ofText? text)

end ProgramRecord

structure SourceText where
  path : String
  text : String
deriving DecidableEq, Repr, Inhabited

structure Program where
  path : String
  classes : List ClassDeclaration
  source : Option SourceText
deriving DecidableEq, Repr, Inhabited

inductive ProgramError where
  | read (path : String)
  | parse (path : String)
deriving DecidableEq, Repr, Inhabited

namespace ProgramError

def message : ProgramError → String
  | read path => s!"Failed to read program file '{path}'"
  | parse path => s!"Failed to parse program file '{path}'"

end ProgramError

namespace Program

/-- The directory that a program file lies in. -/
def rootOf (path : String) : String :=
  match Path.parent? path with
  | some parent => if parent == "" then "." else parent
  | none => "."

def projectRoot (p : Program) : String := rootOf p.path

/-- The path that errors are reported under. -/
def sourceName (p : Program) : String :=
  p.source.elim p.path SourceText.path

def sourceText (p : Program) : String :=
  p.source.elim "" SourceText.text

/-- What is found under the path of a program file. -/
def recordOf (path : String) (entry : Entry) : Except ProgramError ProgramRecord :=
  match entry.text? with
  | none => .error (.read path)
  | some text =>
    match ProgramRecord.ofText? text with
    | none => .error (.parse path)
    | some r => .ok r

/-- Reads a program file, and the source that it names relative to itself. -/
def load [Monad m] (look : String → m Entry) (path : String) : m (Except ProgramError Program) := do
  match recordOf path (← look path) with
  | .error e => return .error e
  | .ok r =>
    match r.source with
    | none => return .ok { path, classes := r.classes, source := none }
    | some name =>
      let sourcePath := Path.join (rootOf path) name
      let text? := (← look sourcePath).text?
      return .ok { path, classes := r.classes, source := text?.map fun text => ⟨sourcePath, text⟩ }

end Program

end CoolHierarchy
