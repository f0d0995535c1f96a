import CoolHierarchy.Report.Check

/-!
# What a command line may hold

Every command names a program file, and some more arguments after it. Two options may stand before
the command or after it; others belong to one command.
-/

namespace CoolHierarchy.CommandLine

def programName : String := "coolc"

def version : String := "0.1.0"

/-- The variable of the environment that names the entry class when no option does. -/
def entryClassVariable : String := "COOLC_ENTRY_CLASS"

inductive Verb where
  | check
  | hierarchy
  | conforms
  | join
  | layout
deriving DecidableEq, Repr, Inhabited

structure Argument where
  name : String
  about : String := ""
deriving DecidableEq, Repr, Inhabited

/-- Options that take a value. -/
inductive Setting where
  | entryClass
  | format
  | className
deriving DecidableEq, Repr, Inhabited

namespace Setting

def name : Setting → String
  | entryClass => "entry-class"
  | format => "format"
  | className => "class"

def valueName : Setting → String
  | entryClass => "ENTRY_CLASS"
  | format => "FORMAT"
  | className => "CLASS"

def about : Setting → String
  | entryClass => "Name of the program entry class (overrides `coolc.toml`)"
  | format => "Output format: text or json"
  | className => "Only print this class"

end Setting

namespace Verb

/-- The commands in the order of the help text. -/
def all : List Verb := [check, hierarchy, conforms, join, layout]

def name : Verb → String
  | check => "check"
  | hierarchy => "hierarchy"
  | conforms => "conforms"
  | join => "join"
  | layout => "layout"

def ofName? (name : String) : Option Verb :=
  all.find? fun v => v.name == name

def about : Verb → String
  | check => "Check a program's class hierarchy for errors"
  | hierarchy => "Print the inheritance tree"
  | conforms => "Test whether one class conforms to another"
  | join => "Print the least common ancestor of two classes"
  | layout => "Print attribute layouts and dispatch tables"

def arguments (v : Verb) : List Argument :=
  ⟨"PROGRAM", "Program file (JSON parser output)"⟩ ::
    match v with
    | conforms => [⟨"SUB", "Candidate subclass"⟩, ⟨"SUP", "Candidate superclass"⟩]
    | join => [⟨"LEFT", ""⟩, ⟨"RIGHT", ""⟩]
    | _ => []

/-- The options of a command, its own ones first. -/
def settings : Verb → List Setting
  | check => [.format, .entryClass]
  | layout => [.className, .entryClass]
  | _ => [.entryClass]

end Verb

inductive UsageError where
  | missingCommand
  | unknownCommand (name : String)
  | unexpectedArgument (text : String)
  | missingArguments (names : List String)
  | missingValue (setting : Setting)
  | repeatedSetting (setting : Setting)
  | unknownFormat (name : String)
deriving DecidableEq, Repr, Inhabited

namespace UsageError

def message : UsageError → String
  | missingCommand => s!"'{programName}' requires a subcommand but one was not provided"
  | unknownCommand name => s!"unrecognized subcommand '{name}'"
  | unexpectedArgument text => s!"unexpected argument '{text}' found"
  | missingArguments names =>
    let list := String.join (names.map fun n => s!"\n  <{n}>")
    s!"the following required arguments were not provided:{list}"
  | missingValue setting =>
    s!"a value is required for '--{setting.name} <{setting.valueName}>' but none was supplied"
  | repeatedSetting setting =>
    s!"the argument '--{setting.name} <{setting.valueName}>' cannot be used multiple times"
  | unknownFormat name =>
    s!"invalid value '{name}' for '--format <FORMAT>': {ReportFormat.unknownMessage name}"

end UsageError

end CoolHierarchy.CommandLine
