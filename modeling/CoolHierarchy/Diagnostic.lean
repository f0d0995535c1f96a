import CoolHierarchy.Span

/-!
# Diagnostics

What a reader of a report is told about one problem, whatever part of an analysis found it.
-/

namespace CoolHierarchy

inductive Severity where
  | error
  | warning
deriving DecidableEq, Repr, Inhabited

namespace Severity

def name : Severity → String
  | error => "error"
  | warning => "warning"

end Severity

/-- A message about a place in the source. `code` names the kind of problem and stays the same
while wordings change. -/
structure Diagnostic where
  severity : Severity := .error
  message : String
  span : Span := .origin
  hint : Option String := none
  code : Option String := none
deriving DecidableEq, Repr, Inhabited

namespace Diagnostic

def isError (d : Diagnostic) : Bool :=
  d.severity == .error

end Diagnostic

/-- A short text fixed to a run of bytes. -/
structure Label where
  text : String
  offset : Nat
  length : Nat
deriving DecidableEq, Repr, Inhabited

namespace Label

def ofSpan (span : Span) (text : String) : Label :=
  { text, offset := span.start.toNat, length := span.length }

end Label

end CoolHierarchy
