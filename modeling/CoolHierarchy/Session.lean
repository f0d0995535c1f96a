import CoolHierarchy.Hierarchy.Analysis
import CoolHierarchy.Manifest
import CoolHierarchy.Program
import CoolHierarchy.Report.Located

/-!
# Sessions

A session is a program with its manifest and the analysis of its classes. Opening one looks at
three files at most: the program, its source and the manifest of the project.
-/

namespace CoolHierarchy

structure Session where
  program : Program
  manifest : Manifest
  analysis : Analysis
deriving DecidableEq, Repr, Inhabited

inductive OpenError where
  | program (e : ProgramError)
  | manifest (e : ManifestError)
deriving DecidableEq, Repr, Inhabited

namespace OpenError

def message : OpenError → String
  | program e => e.message
  | manifest e => e.message

end OpenError

namespace Session

def ofParts (program : Program) (manifest : Manifest) (entryClass : Option String) : Session :=
  { program, manifest, analysis := .build (manifest.entryClassWith entryClass) program.classes }

/-- Opens a program file. An entry class that is given wins over the manifest. -/
def openAt [Monad m] (look : String → m Entry) (path : String) (entryClass : Option String) :
    m (Except OpenError Session) := do
  match ← Program.load look path with
  | .error e => return .error (.program e)
  | .ok program =>
    match ← Manifest.find look program.projectRoot with
    | .error e => return .error (.manifest e)
    | .ok manifest => return .ok (ofParts program (manifest.getD {}) entryClass)

/-- Opens a program file on a disk that is given by value. -/
def openOn (disk : Disk) (path : String) (entryClass : Option String) : Except OpenError Session :=
  openAt (m := Id) disk.look path entryClass

def hierarchy (s : Session) : Hierarchy := s.analysis.hierarchy

/-- What reports call the program: the name of its package, else its path. -/
def title (s : Session) : String :=
  s.manifest.packageName.getD s.program.path

/-- The diagnostics of the analysis next to the source. -/
def located (s : Session) : List LocatedDiagnostic :=
  s.analysis.diagnostics.map fun diagnostic =>
    { diagnostic, sourceName := s.program.sourceName, sourceText := s.program.sourceText }

end Session

end CoolHierarchy
