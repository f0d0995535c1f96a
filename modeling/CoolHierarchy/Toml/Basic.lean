/-!
# TOML documents

The values of a TOML document. Numbers with a fraction and points in time are only told apart from
the rest: what they stand for is checked when they are read, and their text is kept.
-/

namespace CoolHierarchy

inductive Toml where
  | string (s : String)
  | integer (n : Int)
  | float (text : String)
  | boolean (b : Bool)
  | datetime (text : String)
  | array (items : List Toml)
  | table (entries : List (String × Toml))
deriving Repr, Inhabited

namespace Toml

def get? (key : String) : Toml → Option Toml
  | .table entries => entries.lookup key
  | _ => none

/-- A reader takes a value off the front of a text. -/
abbrev Reader := StateT (List Char) Option

namespace Reader

def rest : Reader (List Char) := get

/-- Takes the next character if it passes a test. -/
def charWhere (p : Char → Bool) : Reader Char := do
  match ← get with
  | c :: cs => if p c then set cs; return c else failure
  | [] => failure

def char (c : Char) : Reader Unit := do
  discard (charWhere (· == c))

def text (word : List Char) : Reader Unit := do
  let cs ← get
  if word.isPrefixOf cs then set (cs.drop word.length) else failure

/-- Takes all characters up to the first that fails a test. -/
def takeWhile (p : Char → Bool) : Reader (List Char) := do
  let cs ← get
  set (cs.dropWhile p)
  return cs.takeWhile p

/-- Whether the text goes on in a given way. -/
def startsWith (word : List Char) : Reader Bool := do
  return word.isPrefixOf (← get)

def atEnd : Reader Unit := do
  if (← get).isEmpty then return () else failure

/-- Runs a reader again and again, until it fails or takes nothing, for at most `n` times. -/
def repeatUpTo (r : Reader α) : Nat → Reader (List α)
  | 0 => return []
  | n + 1 => fun cs =>
    match r cs with
    | none => some ([], cs)
    | some (a, rest) =>
      if rest.length < cs.length then (repeatUpTo r n rest).map fun (as, rest) => (a :: as, rest)
      else some ([], cs)

/-- Runs a reader for as long as it takes something. -/
def many (r : Reader α) : Reader (List α) := do
  repeatUpTo r (← get).length

/-- One or more values with a separator between them. -/
def separatedBy (r : Reader α) (separator : Reader Unit) : Reader (List α) := do
  let first ← r
  let more ← many (do separator; r)
  return first :: more

def readAll? (r : Reader α) (cs : List Char) : Option α :=
  match r cs with
  | some (a, []) => some a
  | _ => none

end Reader

/-! ## Blanks and comments -/

def isBlank (c : Char) : Bool := c == ' ' || c == '\t'

/-- What may stand in a comment: tabs and everything that is no control character. -/
def isCommentChar (c : Char) : Bool :=
  c == '\t' || (' ' ≤ c && c != '\x7f')

namespace Reader

def blanks : Reader Unit := discard (takeWhile isBlank)

/-- The end of a line, with or without a carriage return. -/
def newline : Reader Unit := text ['\n'] <|> text ['\r', '\n']

def comment : Reader Unit := do
  char '#'
  discard (takeWhile isCommentChar)

/-- What follows the last value of a line. -/
def lineEnd : Reader Unit := do
  blanks
  discard (optional comment)
  newline <|> atEnd

/-- Blanks, line ends and comments, as they may stand between the items of an array. A comment
ends with its line. -/
def gap : Reader Unit := do
  discard (many (discard (charWhere isBlank) <|> newline <|> (do comment; newline)))

end Reader

end Toml

end CoolHierarchy
