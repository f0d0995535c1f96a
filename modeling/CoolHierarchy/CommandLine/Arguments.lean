import CoolHierarchy.CommandLine.Help
import CoolHierarchy.Command

/-!
# Reading a command line

Arguments are read from left to right, and the first that asks for help, asks for the version or
makes no sense decides. A value follows its option, as an argument of its own that does not look
like an option or after an equals sign. After a double dash nothing is an option.
-/

namespace CoolHierarchy.CommandLine

structure Invocation where
  program : String
  entryClass : Option String
  command : Command
deriving DecidableEq, Repr, Inhabited

inductive Request where
  | run (i : Invocation)
  | help (t : Topic)
  | version
deriving DecidableEq, Repr, Inhabited

inductive Token where
  /-- The double dash after which nothing is an option. -/
  | escape
  /-- An option with two dashes, and the value after its equals sign. -/
  | long (name : String) (value : Option String)
  /-- One or more options of one letter. -/
  | short (letters : List Char)
  | plain (text : String)
deriving DecidableEq, Repr, Inhabited

namespace Token

/-- A text cut at its first equals sign. -/
def splitValue (cs : List Char) : String × Option String :=
  let name := String.ofList (cs.takeWhile (· != '='))
  match cs.dropWhile (· != '=') with
  | [] => (name, none)
  | _ :: value => (name, some (String.ofList value))

def ofString (text : String) : Token :=
  match text.toList with
  | ['-', '-'] => escape
  | '-' :: '-' :: cs =>
    let (name, value) := splitValue cs
    long name value
  | ['-'] => plain text
  | '-' :: letters => short letters
  | _ => plain text

end Token

structure Draft where
  values : List (Setting × String) := []
  format : Option ReportFormat := none
  positionals : List String := []
deriving DecidableEq, Repr, Inhabited

namespace Draft

def value? (d : Draft) (s : Setting) : Option String := d.values.lookup s

/-- Gives an option its value, which it may have only once. -/
def set (d : Draft) (s : Setting) (value : String) : Except UsageError Draft :=
  if (d.value? s).isSome then .error (.repeatedSetting s)
  else
    let d' := { d with values := (s, value) :: d.values }
    match s with
    | .format =>
      match ReportFormat.ofName? value with
      | some format => .ok { d' with format := some format }
      | none => .error (.unknownFormat value)
    | _ => .ok d'

end Draft

inductive Step where
  | next (d : Draft)
  /-- The next argument must be the value of an option. -/
  | await (s : Setting)
  | done (r : Request)

/-- Options of one letter, which take no values. -/
def shortStep (topic : Topic) (d : Draft) : List Char → Except UsageError Step
  | [] => .ok (.next d)
  | c :: rest =>
    if c == 'v' then shortStep topic d rest
    else if c == 'h' then .ok (.done (.help topic))
    else if c == 'V' && topic == .overview then .ok (.done .version)
    else .error (.unexpectedArgument (String.ofList ['-', c]))

def longStep (topic : Topic) (settings : List Setting) (d : Draft) (name : String) :
    Option String → Except UsageError Step
  | some value =>
    match settings.find? fun s => s.name == name with
    | some s => (d.set s value).map .next
    | none => .error (.unexpectedArgument ("--" ++ name))
  | none =>
    match settings.find? fun s => s.name == name with
    | some s => .ok (.await s)
    | none =>
      if name == "verbose" then .ok (.next d)
      else if name == "help" then .ok (.done (.help topic))
      else if name == "version" && topic == .overview then .ok (.done .version)
      else .error (.unexpectedArgument ("--" ++ name))

def awaitedValue (s : Setting) (text : String) : Except UsageError String :=
  match Token.ofString text with
  | .plain value => .ok value
  | _ => .error (.missingValue s)

def addPositional (v : Verb) (d : Draft) (text : String) : Except UsageError Draft :=
  if d.positionals.length < v.arguments.length then
    .ok { d with positionals := d.positionals ++ [text] }
  else .error (.unexpectedArgument text)

def readVerb (v : Verb) (d : Draft) : List String → Except UsageError (Draft ⊕ Request)
  | [] => .ok (.inl d)
  | text :: rest =>
    match Token.ofString text with
    | .escape => (rest.foldlM (addPositional v) d).map .inl
    | .plain text => do readVerb v (← addPositional v d text) rest
    | .short letters => do
      match ← shortStep (.verb v) d letters with
      | .done r => return .inr r
      | .next d => readVerb v d rest
      | .await s => .error (.missingValue s)
    | .long name value => do
      match ← longStep (.verb v) v.settings d name value with
      | .done r => return .inr r
      | .next d => readVerb v d rest
      | .await s =>
        match rest with
        | [] => .error (.missingValue s)
        | text :: rest => readVerb v (← d.set s (← awaitedValue s text)) rest

/-- The command of a verb whose arguments have been read. -/
def command? (v : Verb) (d : Draft) : Option (String × Command) :=
  match v, d.positionals with
  | .check, [program] => some (program, .check (d.format.getD .text))
  | .hierarchy, [program] => some (program, .hierarchy)
  | .conforms, [program, sub, sup] => some (program, .conforms sub sup)
  | .join, [program, left, right] => some (program, .join left right)
  | .layout, [program] => some (program, .layout (d.value? .className))
  | _, _ => none

/-- Reads a command and all that follows it. `outer` is what stood before the command; an entry
class after it wins over one before it, and both win over the environment. What is wrong with the
last value before the command counts only after all that follows has been read. -/
def readCommand (v : Verb) (outer : Except UsageError Draft) (environment : Option String)
    (args : List String) : Except UsageError Request := do
  match ← readVerb v {} args with
  | .inr r => return r
  | .inl d =>
    match command? v d with
    | some (program, command) =>
      let outer ← outer
      let entryClass := d.value? .entryClass <|> outer.value? .entryClass <|> environment
      return .run { program, entryClass, command }
    | none => .error (.missingArguments ((v.arguments.drop d.positionals.length).map Argument.name))

def readHelp : List String → Except UsageError Request
  | [] => .ok (.help .overview)
  | [name] =>
    if name == "help" then .ok (.help .help)
    else match Verb.ofName? name with
      | some v => .ok (.help (.verb v))
      | none => .error (.unknownCommand name)
  | first :: name :: _ =>
    if first == "help" || (Verb.ofName? first).isSome then .error (.unknownCommand name)
    else .error (.unknownCommand first)

/-- Reads arguments up to the command, and then the command. `outer` is what has been read so far.
A value that is an argument of its own is looked at when the next option comes. -/
def readFrom (outer : Except UsageError Draft) (environment : Option String) :
    List String → Except UsageError Request
  | [] => .error .missingCommand
  | text :: rest =>
    match Token.ofString text with
    | .escape =>
      match rest with
      | [] => .error .missingCommand
      | text :: _ => .error (.unexpectedArgument text)
    | .plain name =>
      if name == "help" then readHelp rest
      else match Verb.ofName? name with
        | some v => readCommand v outer environment rest
        | none => .error (.unknownCommand name)
    | .short letters => do
      match ← shortStep .overview (← outer) letters with
      | .done r => return r
      | .next d => readFrom (.ok d) environment rest
      | .await s => .error (.missingValue s)
    | .long name value => do
      match ← longStep .overview [.entryClass] (← outer) name value with
      | .done r => return r
      | .next d => readFrom (.ok d) environment rest
      | .await s =>
        match rest with
        | [] => .error (.missingValue s)
        | text :: rest => readFrom ((← outer).set s (← awaitedValue s text)) environment rest

/-- Reads a command line. `environment` is the entry class that the environment names. -/
def read (environment : Option String) (args : List String) : Except UsageError Request :=
  readFrom (.ok {}) environment args

end CoolHierarchy.CommandLine
