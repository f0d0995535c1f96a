import CoolHierarchy.Disk
import CoolHierarchy.Hierarchy.Registry
import CoolHierarchy.Path
import CoolHierarchy.Toml.Parser

/-!
# Project manifests

A manifest may lie next to a program file. It names the package and may say which class a program
starts in. Keys that it does not know are passed over.
-/

namespace CoolHierarchy

structure Manifest where
  packageName : Option String := none
  entryClass : Option String := none
deriving DecidableEq, Repr, Inhabited

inductive ManifestError where
  | stat (path : String)
  | read (path : String)
  | parse (path : String)
deriving DecidableEq, Repr, Inhabited

namespace ManifestError

def message : ManifestError → String
  | stat path => s!"Failed to stat manifest '{path}'"
  | read path => s!"Failed to read manifest '{path}'"
  | parse path => s!"Failed to parse manifest '{path}'"

end ManifestError

namespace Manifest

def fileName : String := "coolc.toml"

def stringOf? : Toml → Option String
  | .string s => some s
  | _ => none

/-- The name of a package, which must be given. An array stands for its first field. -/
def packageNameOf? : Toml → Option String
  | .table entries => do stringOf? (← entries.lookup "name")
  | .array items => do stringOf? (← items.head?)
  | _ => none

/-- The entry class in the settings of an analysis, which may be left out. An array stands for its
first field. A point in time is a record without any of the settings. -/
def entryClassOf? : Toml → Option (Option String)
  | .table entries =>
    match entries.lookup "entry-class" with
    | some v => (stringOf? v).map some
    | none => some none
  | .array items =>
    match items.head? with
    | some v => (stringOf? v).map some
    | none => some none
  | .datetime _ => some none
  | _ => none

def ofToml? (t : Toml) : Option Manifest := do
  let packageName ← match t.get? "package" with
    | some v => (packageNameOf? v).map some
    | none => some none
  let entryClass ← match t.get? "analysis" with
    | some v => entryClassOf? v
    | none => some none
  some { packageName, entryClass }

def ofText? (text : String) : Option Manifest := do
  ofToml? (← Toml.ofText? text)

/-- What is found where the manifest of a project would lie. -/
def ofEntry (path : String) : Entry → Except ManifestError (Option Manifest)
  | .missing => .ok none
  | .blocked => .error (.stat path)
  | entry =>
    match entry.text? with
    | none => .error (.read path)
    | some text =>
      match ofText? text with
      | none => .error (.parse path)
      | some m => .ok (some m)

/-- The manifest of a project, if it has one. -/
def find [Monad m] (look : String → m Entry) (projectRoot : String) :
    m (Except ManifestError (Option Manifest)) := do
  let path := Path.join projectRoot fileName
  return ofEntry path (← look path)

/-- The entry class of a program. One that is asked for directly wins over the manifest. -/
def entryClassWith (m : Manifest) (asked : Option String) : String :=
  (asked <|> m.entryClass).getD defaultEntryClass

end Manifest

end CoolHierarchy
