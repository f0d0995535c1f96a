import CoolHierarchy.Json.Token

/-!
# Reading JSON

Tokens are read one by one. What is read so far is a state: the containers that are still open,
innermost first, and what may come next. A reader never looks ahead and never goes back, and the
depth of nesting is not limited here.
-/

namespace CoolHierarchy.Json

/-- A container that is still open, with what came before the value that is read next. Earlier
items and members are listed last first. -/
inductive Frame where
  | array (before : List Json)
  | member (before : List (Option String × Json)) (key : Option String)
deriving Inhabited

/-- What a reader of tokens expects. -/
inductive Expectation where
  | value (frames : List Frame)
  | firstItem (frames : List Frame)
  | firstKey (frames : List Frame)
  | nextKey (before : List (Option String × Json)) (frames : List Frame)
  | colon (before : List (Option String × Json)) (key : Option String) (frames : List Frame)
  /-- A value is complete; a comma or the end of its container may come. -/
  | after (v : Json) (frames : List Frame)
deriving Inhabited

namespace Expectation

def startValue (frames : List Frame) : Token → Option Expectation
  | .null => some (after .null frames)
  | .bool b => some (after (.bool b) frames)
  | .number n => some (after (.number n) frames)
  | .string text? => some (after (.string text?) frames)
  | .openArray => some (firstItem frames)
  | .openObject => some (firstKey frames)
  | _ => none

def step : Expectation → Token → Option Expectation
  | value frames, t => startValue frames t
  | firstItem frames, .closeArray => some (after (.array []) frames)
  | firstItem frames, t => startValue (.array [] :: frames) t
  | firstKey frames, .closeObject => some (after (.object []) frames)
  | firstKey frames, .string key => some (colon [] key frames)
  | firstKey _, _ => none
  | nextKey before frames, .string key => some (colon before key frames)
  | nextKey _ _, _ => none
  | colon before key frames, .colon => some (value (.member before key :: frames))
  | colon _ _ _, _ => none
  | after v (.array before :: frames), .comma => some (value (.array (v :: before) :: frames))
  | after v (.array before :: frames), .closeArray =>
    some (after (.array (v :: before).reverse) frames)
  | after v (.member before key :: frames), .comma => some (nextKey ((key, v) :: before) frames)
  | after v (.member before key :: frames), .closeObject =>
    some (after (.object ((key, v) :: before).reverse) frames)
  | after _ _, _ => none

def result? : Expectation → Option Json
  | after v [] => some v
  | _ => none

end Expectation

def ofTokens? (ts : List Token) : Option Json := do
  (← ts.foldlM Expectation.step (.value [])).result?

/-- The value that a text spells, with nothing but blanks around it. -/
def ofText? (text : String) : Option Json := do
  ofTokens? (← Token.ofText? text)

end CoolHierarchy.Json
