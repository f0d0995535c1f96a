import CoolHierarchy.Toml.Scalar
import CoolHierarchy.Toml.Section

/-!
# Reading TOML

A document is a list of lines that set a value or open a table. Arrays may extend over lines and
may end with a comma, tables in braces may not. Arrays and braces are nested to a limited depth.
-/

namespace CoolHierarchy.Toml

namespace Reader

/-- An array, after its bracket. -/
def arrayTail (item : Reader Toml) : Reader Toml := do
  let items ← optional (separatedBy (do gap; let v ← item; gap; return v) (char ','))
  if items.isSome then discard (optional (char ','))
  gap
  char ']'
  return .array (items.getD [])

/-- A key with a value. -/
def assignment (item : Reader Toml) : Reader (List String × Toml) := do
  let path ← key
  char '='
  blanks
  return (path, ← item)

/-- A table in braces, after its brace. -/
def inlineTail (item : Reader Toml) : Reader Toml := do
  let pairs ← optional (separatedBy (do let a ← assignment item; blanks; return a) (char ','))
  blanks
  char '\x7d'
  let build (s : Section) (pair : List String × Toml) : Option Section := s.insert pair.1 pair.2
  match (pairs.getD []).foldlM build {} with
  | some s => return s.toToml
  | none => failure

/-- A value whose arrays and braces are nested at most `depth` deep. -/
def value : (depth : Nat) → Reader Toml
  | 0 => scalar
  | depth + 1 => fun cs =>
    match cs with
    | '[' :: rest => arrayTail (value depth) rest
    | '\x7b' :: rest => inlineTail (value depth) rest
    | cs => scalar cs

def maxDepth : Nat := 79

end Reader

inductive Line where
  | blank
  | tableHeader (path : List String)
  | itemHeader (path : List String)
  | assignment (path : List String) (v : Toml)
deriving Inhabited

/-- A document that is read so far: its top table, and the header that is in force. -/
structure Draft where
  top : Section := {}
  header : List String := []
deriving Inhabited

namespace Draft

def step (d : Draft) : Line → Option Draft
  | .blank => some d
  | .tableHeader path => (d.top.openTable path).map fun top => { top, header := path }
  | .itemHeader path => (d.top.openItem path).map fun top => { top, header := path }
  | .assignment path v => (d.top.insertUnder d.header path v).map fun top => { d with top }

end Draft

namespace Reader

def lineBody : Reader Line := do
  blanks
  match ← rest with
  | [] => return .blank
  | '#' :: _ => return .blank
  | '\n' :: _ => return .blank
  | '\r' :: _ => return .blank
  | '[' :: '[' :: _ =>
    text ['[', '[']
    let path ← key
    text [']', ']']
    return .itemHeader path
  | '[' :: _ =>
    char '['
    let path ← key
    char ']'
    return .tableHeader path
  | _ =>
    let (path, v) ← assignment (value maxDepth)
    return .assignment path v

def document : Reader (List Line) :=
  many (do let l ← lineBody; lineEnd; return l)

end Reader

/-- The document that a text spells. A byte order mark in front is passed over. -/
def ofText? (text : String) : Option Toml := do
  let cs := text.toList
  let cs := if cs.head? == some '\ufeff' then cs.drop 1 else cs
  let lines ← Reader.document.readAll? cs
  let draft ← lines.foldlM Draft.step {}
  some draft.top.toToml

end CoolHierarchy.Toml
