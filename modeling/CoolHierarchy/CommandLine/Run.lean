import CoolHierarchy.CommandLine.Arguments

/-!
# Running a command line

What a run writes and the status that it ends with: zero for success, one for a command that
fails, two for a command line that makes no sense.
-/

namespace CoolHierarchy.CommandLine

structure Result where
  status : Nat := 0
  output : String := ""
  errors : String := ""
deriving DecidableEq, Repr, Inhabited

def renderNotice (n : Notice) : String :=
  let place := match n.label? with
    | some l => s!"\n  at {n.sourceName}, bytes {l.offset} to {l.offset + l.length}: {l.text}"
    | none => ""
  let help := match n.help? with
    | some hint => s!"\n  help: {hint}"
    | none => ""
  s!"{n.shownSeverity.name}[{n.shownCode}]: {n.shownMessage}{place}{help}\n"

/-- What a command writes besides its answer. -/
def remarks (s : Session) : Command → String
  | .check .text => String.join (s.located.map fun d => renderNotice d.notice)
  | _ => ""

def runCommand (s : Session) (c : Command) : Result :=
  let outcome := c.run s
  match outcome.failure with
  | none => { output := outcome.output, errors := remarks s c }
  | some message =>
    { status := 1, output := outcome.output, errors := remarks s c ++ s!"Error: {message}\n" }

def perform [Monad m] (look : String → m Entry) (environment : Option String) :
    Request → m Result
  | .version => return { output := s!"{programName} {version}\n" }
  | .help t => return { output := t.render environment }
  | .run i => do
    match ← Session.openAt look i.program i.entryClass with
    | .error e => return { status := 1, errors := s!"Error: {e.message}\n" }
    | .ok s => return runCommand s i.command

/-- Runs a command line. Without any arguments the overview is shown as an error. -/
def run [Monad m] (look : String → m Entry) (environment : Option String) (args : List String) :
    m Result :=
  match read environment args with
  | .ok request => perform look environment request
  | .error e =>
    let text := if args.isEmpty then Topic.overview.render environment
      else s!"error: {e.message}\n"
    return { status := 2, errors := text }

/-- Runs a command line on a disk that is given by value. -/
def runOn (disk : Disk) (environment : Option String) (args : List String) : Result :=
  run (m := Id) disk.look environment args

end CoolHierarchy.CommandLine
