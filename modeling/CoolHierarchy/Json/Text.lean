import CoolHierarchy.Digits

/-!
# Quoted text

A string in JSON is a run of characters between quotes. Some characters are written as escapes; an
escape of four hexadecimal digits names a code unit of sixteen bits, and a character beyond the
first 65536 takes two of them. The printer escapes only what must be.
-/

namespace CoolHierarchy.Json

/-- What a quoted text is made of: a character, or a code unit named by an escape. -/
inductive Piece where
  | char (c : Char)
  | unit (u : Nat)
deriving DecidableEq, Repr, Inhabited

/-- The character that a letter after a backslash stands for. -/
def shortEscape? : Char → Option Char
  | '"' => some '"'
  | '\\' => some '\\'
  | '/' => some '/'
  | 'b' => some '\x08'
  | 'f' => some '\x0c'
  | 'n' => some '\n'
  | 'r' => some '\r'
  | 't' => some '\t'
  | _ => none

/-- Splits off the pieces up to the closing quote. `done` holds the pieces before, last first. -/
def scanPieces (done : List Piece) : List Char → Option (List Piece × List Char)
  | [] => none
  | '"' :: rest => some (done.reverse, rest)
  | '\\' :: 'u' :: a :: b :: c :: d :: rest =>
    match Digits.toNat? 16 [a, b, c, d] with
    | some u => scanPieces (.unit u :: done) rest
    | none => none
  | '\\' :: e :: rest =>
    match shortEscape? e with
    | some c => scanPieces (.char c :: done) rest
    | none => none
  | c :: rest =>
    if c == '\\' || c < ' ' then none else scanPieces (.char c :: done) rest

def isHighSurrogate (u : Nat) : Bool := 0xD800 ≤ u && u < 0xDC00

def isLowSurrogate (u : Nat) : Bool := 0xDC00 ≤ u && u < 0xE000

/-- The character that a surrogate pair stands for. -/
def ofSurrogates (high low : Nat) : Char :=
  Char.ofNat (0x10000 + (high - 0xD800) * 0x400 + (low - 0xDC00))

/-- The text that pieces stand for, unless half of a surrogate pair is among them. `done` holds
the characters before, last first. -/
def assemble (done : List Char) : List Piece → Option (List Char)
  | [] => some done.reverse
  | .char c :: rest => assemble (c :: done) rest
  | .unit high :: .unit low :: rest =>
    if isHighSurrogate high then
      if isLowSurrogate low then assemble (ofSurrogates high low :: done) rest else none
    else if isLowSurrogate high then none
    else assemble (Char.ofNat high :: done) (.unit low :: rest)
  | .unit u :: rest =>
    if isHighSurrogate u || isLowSurrogate u then none
    else assemble (Char.ofNat u :: done) rest

/-- Splits off a quoted text whose opening quote is already read. -/
def scanText? (cs : List Char) : Option (Option String × List Char) := do
  let (pieces, rest) ← scanPieces [] cs
  some ((assemble [] pieces).map String.ofList, rest)

/-! ## Printing -/

def escape (c : Char) : List Char :=
  if c == '"' then ['\\', '"']
  else if c == '\\' then ['\\', '\\']
  else if c == '\x08' then ['\\', 'b']
  else if c == '\x0c' then ['\\', 'f']
  else if c == '\n' then ['\\', 'n']
  else if c == '\r' then ['\\', 'r']
  else if c == '\t' then ['\\', 't']
  else if c < ' ' then ['\\', 'u', '0', '0', Digits.ofValue (c.toNat / 16),
    Digits.ofValue (c.toNat % 16)]
  else [c]

/-- A text in quotes. What stands for no text is written as half of a surrogate pair. -/
def quote : Option String → List Char
  | some s => '"' :: s.toList.flatMap escape ++ ['"']
  | none => ['"', '\\', 'u', 'd', '8', '0', '0', '"']

end CoolHierarchy.Json
