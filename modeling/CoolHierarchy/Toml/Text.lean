import CoolHierarchy.Digits
import CoolHierarchy.Toml.Basic

/-!
# TOML strings and keys

Strings come in four forms: basic strings know escapes, literal strings do not, and each of them
may extend over several lines between tripled quotes. In a string of several lines a line end at
the very start is dropped, line ends are read as line feeds, and up to two quotes may stand
directly before the closing ones.
-/

namespace CoolHierarchy.Toml

/-- The character of a code point, which must not be half of a surrogate pair. -/
def charOfHex? (digits : List Char) : Option Char := do
  let n ← Digits.toNat? 16 digits
  if n.isValidChar then some (Char.ofNat n) else none

/-- The character that a letter after a backslash stands for. -/
def escape? : Char → Option Char
  | 'b' => some '\x08'
  | 't' => some '\t'
  | 'n' => some '\n'
  | 'f' => some '\x0c'
  | 'r' => some '\r'
  | '"' => some '"'
  | '\\' => some '\\'
  | _ => none

/-- Takes an escape whose backslash is already read. -/
def escapeTail? : List Char → Option (Char × List Char)
  | 'u' :: rest =>
    if rest.length < 4 then none else (charOfHex? (rest.take 4)).map fun c => (c, rest.drop 4)
  | 'U' :: rest =>
    if rest.length < 8 then none else (charOfHex? (rest.take 8)).map fun c => (c, rest.drop 8)
  | c :: rest => (escape? c).map fun c => (c, rest)
  | [] => none

/-- Drops blanks and line ends. -/
def dropSpace : List Char → List Char
  | '\r' :: '\n' :: rest => dropSpace rest
  | c :: rest => if isBlank c || c == '\n' then dropSpace rest else c :: rest
  | [] => []

/-- Drops a line end at the start of a text. -/
def dropNewline : List Char → List Char
  | '\n' :: rest => rest
  | '\r' :: '\n' :: rest => rest
  | cs => cs

/-- A backslash at the end of a line takes with it all space up to the next character. -/
def foldedLine? (cs : List Char) : Option (List Char) :=
  match cs.dropWhile isBlank with
  | '\n' :: rest => some (dropSpace rest)
  | '\r' :: '\n' :: rest => some (dropSpace rest)
  | _ => none

/-- Reads the rest of a basic string of one line. Each step takes at least one character, so
`steps` may be the length of the text; `done` holds the characters before, last first. -/
def basicTail (done : List Char) : (steps : Nat) → List Char → Option (String × List Char)
  | 0, _ => none
  | _ + 1, [] => none
  | _ + 1, '"' :: rest => some (String.ofList done.reverse, rest)
  | n + 1, '\\' :: rest => do
    let (c, rest) ← escapeTail? rest
    basicTail (c :: done) n rest
  | n + 1, c :: rest => if isCommentChar c then basicTail (c :: done) n rest else none

def literalTail (done : List Char) : List Char → Option (String × List Char)
  | [] => none
  | '\'' :: rest => some (String.ofList done.reverse, rest)
  | c :: rest => if isCommentChar c then literalTail (c :: done) rest else none

/-- Quotes in a string of several lines: three of them close it, of which the last ones count, and
at most two belong to the text. -/
def closingQuotes? (quote : Char) (cs : List Char) : Option (Option (List Char × List Char)) :=
  let n := (cs.takeWhile (· == quote)).length
  if n < 3 then some none
  else if n ≤ 5 then some (some (List.replicate (n - 3) quote, cs.drop n))
  else none

/-- Reads the rest of a basic string of several lines. -/
def basicLinesTail (done : List Char) : (steps : Nat) → List Char → Option (String × List Char)
  | 0, _ => none
  | _ + 1, [] => none
  | n + 1, '"' :: rest => do
    match ← closingQuotes? '"' ('"' :: rest) with
    | some (quotes, rest) => some (String.ofList (done.reverse ++ quotes), rest)
    | none => basicLinesTail ('"' :: done) n rest
  | n + 1, '\\' :: rest =>
    match foldedLine? rest with
    | some rest => basicLinesTail done n rest
    | none => do
      let (c, rest) ← escapeTail? rest
      basicLinesTail (c :: done) n rest
  | n + 1, '\r' :: '\n' :: rest => basicLinesTail ('\n' :: done) n rest
  | n + 1, c :: rest =>
    if c == '\n' || isCommentChar c then basicLinesTail (c :: done) n rest else none

/-- Reads the rest of a literal string of several lines. -/
def literalLinesTail (done : List Char) : List Char → Option (String × List Char)
  | [] => none
  | '\'' :: rest => do
    match ← closingQuotes? '\'' ('\'' :: rest) with
    | some (quotes, rest) => some (String.ofList (done.reverse ++ quotes), rest)
    | none => literalLinesTail ('\'' :: done) rest
  | '\r' :: '\n' :: rest => literalLinesTail ('\n' :: done) rest
  | c :: rest => if c == '\n' || isCommentChar c then literalLinesTail (c :: done) rest else none

namespace Reader

def lineString : Reader String := fun cs =>
  match cs with
  | '"' :: rest => basicTail [] (rest.length + 1) rest
  | '\'' :: rest => literalTail [] rest
  | _ => none

def string : Reader String := fun cs =>
  match cs with
  | '"' :: '"' :: '"' :: rest =>
    let rest := dropNewline rest
    basicLinesTail [] (rest.length + 1) rest
  | '\'' :: '\'' :: '\'' :: rest => literalLinesTail [] (dropNewline rest)
  | cs => lineString cs

def isBareKeyChar (c : Char) : Bool :=
  c.isAlphanum || c == '_' || c == '-'

/-- One part of a key: a bare word or a string of one line. -/
def keyPart : Reader String := do
  if (← startsWith ['"']) || (← startsWith ['\'']) then lineString
  else
    match ← takeWhile isBareKeyChar with
    | [] => failure
    | cs => return String.ofList cs

def maxKeyParts : Nat := 79

/-- A key: parts with points between them, and blanks around each of them. -/
def key : Reader (List String) := do
  let parts ← separatedBy (do blanks; let part ← keyPart; blanks; return part) (char '.')
  if parts.length ≤ maxKeyParts then return parts else failure

end Reader

end CoolHierarchy.Toml
