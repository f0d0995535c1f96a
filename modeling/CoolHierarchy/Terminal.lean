/-!
# Text for terminals and for files

A text may hold sequences that steer a terminal: an escape character and what belongs to it. Plain
text has neither such sequences nor control characters other than blanks, so it looks the same on
a screen and in a file. `isPlain_of_mem_plainFrom` says that nothing else is written.
-/

namespace CoolHierarchy.Terminal

/-- A text that a terminal shows in bold type. -/
def bold (text : String) : String :=
  "\x1b[1m" ++ text ++ "\x1b[0m"

/-- Where reading stands in a sequence. -/
inductive Mode where
  | text
  | escape
  /-- In an escape sequence that goes on after its first character. -/
  | escapeTail
  /-- In a control sequence, which ends with the letter that names what it does. -/
  | control
  | deviceStart
  | deviceParameters
  | deviceTail
  /-- In a command to the operating system, which a bell ends. -/
  | system
  | string
deriving DecidableEq, Repr, Inhabited

/-- The control characters that take part in the layout of a text. -/
def isBlank (c : Char) : Bool :=
  c == '\t' || c == '\n' || c == '\x0c' || c == '\r'

def isPlain (c : Char) : Bool :=
  (' ' ≤ c && c != '\x7f') || isBlank c

/-- The terminator of a string is a byte, also where it is one of several that make a character. -/
def terminates (c : Char) : Bool :=
  (String.utf8EncodeChar c).contains 0x9c

namespace Mode

/-- The mode after a character. An escape character starts a sequence and the characters that
cancel or replace one end it, whatever the mode. -/
def next (m : Mode) (c : Char) : Mode :=
  if c == '\x1b' then escape
  else if c == '\x18' || c == '\x1a' then text
  else match m with
    | text => text
    | escape =>
      if ' ' ≤ c && c ≤ '/' then escapeTail
      else if c == '[' then control
      else if c == ']' then system
      else if c == 'P' then deviceStart
      else if c == 'X' || c == '^' || c == '_' then string
      else if '0' ≤ c && c ≤ '~' then text
      else escape
    | escapeTail => if '0' ≤ c && c ≤ '~' then text else escapeTail
    | control => if '@' ≤ c && c ≤ '~' then text else control
    | deviceStart =>
      if ' ' ≤ c && c ≤ '/' then deviceTail
      else if '0' ≤ c && c ≤ '?' then deviceParameters
      else if '@' ≤ c && c ≤ '~' then string
      else deviceStart
    | deviceParameters =>
      if ' ' ≤ c && c ≤ '/' then deviceTail
      else if '<' ≤ c && c ≤ '~' then string
      else deviceParameters
    | deviceTail => if '0' ≤ c && c ≤ '~' then string else deviceTail
    | system => if c == '\x07' then text else system
    | string => if terminates c then text else string

/-- Whether a character that is read in a mode is written. A blank is written also inside an
escape sequence or a control sequence. -/
def shows (m : Mode) (c : Char) : Bool :=
  match m with
  | text => isPlain c
  | escape | escapeTail | control => isBlank c
  | deviceStart | deviceParameters | deviceTail | system | string => false

end Mode

/-- How far reading has come. After a character that is written, plain text is written as it is,
and a sequence in which that character stood waits for the next character that is not plain. -/
structure Progress where
  mode : Mode := .text
  showing : Bool := false
deriving DecidableEq, Repr, Inhabited

/-- Reads a character and says whether it is written. A character beyond the seven-bit ones ends
the sequence that waits. -/
def Progress.step (p : Progress) (c : Char) : Progress × Bool :=
  if p.showing && isPlain c then
    ({ p with mode := if c ≤ '\x7f' then p.mode else .text }, true)
  else
    let shown := p.mode.shows c
    ({ mode := p.mode.next c, showing := shown }, shown)

/-- What is written of a row of characters. -/
def plainFrom (p : Progress) : List Char → List Char
  | [] => []
  | c :: cs =>
    match p.step c with
    | (p, true) => c :: plainFrom p cs
    | (p, false) => plainFrom p cs

theorem isPlain_of_shows {m : Mode} {c : Char} (h : m.shows c = true) : isPlain c = true := by
  cases m with
  | text => exact h
  | escape | escapeTail | control =>
    have hb : isBlank c = true := h
    simp [isPlain, hb]
  | deviceStart | deviceParameters | deviceTail | system | string => cases h

theorem isPlain_of_step {p : Progress} {c : Char} (h : (p.step c).2 = true) : isPlain c = true := by
  unfold Progress.step at h
  split at h
  · rename_i hp
    exact (Bool.and_eq_true_iff.1 hp).2
  · exact isPlain_of_shows h

/-- Only plain characters are written. -/
theorem isPlain_of_mem_plainFrom {p : Progress} {cs : List Char} {c : Char}
    (h : c ∈ plainFrom p cs) : isPlain c = true := by
  induction cs generalizing p with
  | nil => cases h
  | cons d cs ih =>
    unfold plainFrom at h
    split at h
    · rename_i q hq
      rcases List.mem_cons.1 h with rfl | h
      · exact isPlain_of_step (congrArg Prod.snd hq)
      · exact ih h
    · exact ih h

def plain (text : String) : String :=
  String.ofList (plainFrom {} text.toList)

/-- How many places a text takes. -/
def width (text : String) : Nat := (plain text).length

end CoolHierarchy.Terminal
