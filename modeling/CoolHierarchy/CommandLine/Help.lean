import CoolHierarchy.CommandLine.Usage
import CoolHierarchy.Terminal

/-!
# Help texts

A help text says what a command does, how it is called, and what its arguments and options mean,
each list in two columns.
-/

namespace CoolHierarchy.CommandLine

inductive Topic where
  | overview
  | verb (v : Verb)
  | help
deriving DecidableEq, Repr, Inhabited

namespace Topic

def pad (width : Nat) (s : String) : String :=
  s ++ String.ofList (List.replicate (width - Terminal.width s) ' ')

/-- A text in a column: every line but its first is moved to where the column starts. -/
def hang (column : Nat) (s : String) : String :=
  String.ofList (s.toList.flatMap fun c =>
    if c == '\n' then c :: List.replicate column ' ' else [c])

/-- A list with a title in two columns, the second of which starts two places after the widest
entry of the first. -/
def renderColumns (title : String) (rows : List (String × String)) : String :=
  let width := (rows.map fun r => Terminal.width r.1).foldl max 0
  let renderRow := fun (left, right) => s!"  {pad (width + 2) left}{hang (width + 4) right}\n"
  s!"\n{title}:\n" ++ String.join (rows.map renderRow)

def flag (letter name : String) : String :=
  s!"{Terminal.bold letter}, {Terminal.bold name}"

def settingRow (environment : Option String) (s : Setting) : String × String :=
  let note := match s with
    | .entryClass => " [env: " ++ entryClassVariable ++ "=" ++ environment.getD "" ++ "]"
    | .format => " [default: text]"
    | .className => ""
  ("    " ++ Terminal.bold ("--" ++ s.name) ++ s!" <{s.valueName}>", s.about ++ note)

def verboseRow : String × String :=
  (flag "-v" "--verbose" ++ "...", "Increase logging verbosity (-v: debug, -vv+: trace)")

def helpRow : String × String := (flag "-h" "--help", "Print help")

def versionRow : String × String := (flag "-V" "--version", "Print version")

/-- The options of a command: those that are its own, then those of all commands. -/
def optionRows (environment : Option String) (v : Verb) : List (String × String) :=
  let own := v.settings.filter (· != .entryClass)
  own.map (settingRow environment)
    ++ [verboseRow, settingRow environment .entryClass, helpRow]

def about : Topic → String
  | overview => "Command-line front end for the COOL class-hierarchy engine"
  | verb v => v.about
  | help => "Print this message or the help of the given subcommand(s)"

def usage : Topic → String
  | overview => "[OPTIONS] <COMMAND>"
  | verb v => s!"{v.name} [OPTIONS] " ++ " ".intercalate (v.arguments.map fun a => s!"<{a.name}>")
  | help => "help [COMMAND]..."

def lists (environment : Option String) : Topic → String
  | overview =>
    renderColumns "Commands"
        (Verb.all.map (fun v => (Terminal.bold v.name, v.about))
          ++ [(Terminal.bold "help", Topic.help.about)])
      ++ renderColumns "Options"
        [verboseRow, settingRow environment .entryClass, helpRow, versionRow]
  | verb v =>
    renderColumns "Arguments" (v.arguments.map fun a => (s!"<{a.name}>", a.about))
      ++ renderColumns "Options" (optionRows environment v)
  | help => renderColumns "Arguments" [("[COMMAND]...", "Print help for the subcommand(s)")]

/-- The help text of a topic for a terminal, with the names of commands and options in bold type.
`environment` is the entry class that the environment names, shown as it is. -/
def styled (environment : Option String) (t : Topic) : String :=
  s!"{t.about}\n\nUsage: {programName} {t.usage}\n" ++ t.lists environment

/-- The help text of a topic as plain text. A sequence that the environment leaves open reaches up
to the next name in bold type. -/
def render (environment : Option String) (t : Topic) : String :=
  Terminal.plain (t.styled environment)

end Topic

end CoolHierarchy.CommandLine
