import CoolHierarchy.Diagnostic

/-!
# Diagnostics next to their source

A diagnostic shown beside the text that it speaks of. What is shown is a record of its own, a
`Notice`, and everything in it is copied from the diagnostic. Only the span may be left out: an
empty span has nothing to point at, and a span past the end of the text belongs to another text.
-/

namespace CoolHierarchy

/-- What is shown of a problem beside a source text. -/
structure Notice where
  severity : Severity
  code : Option String
  message : String
  sourceName : String
  sourceText : String
  /-- A span that covers bytes of the source text. -/
  span : Option Span
  labelText : String
  hint : Option String
deriving DecidableEq, Repr, Inhabited

namespace Notice

/-- The code of what no part of the analysis has given a code to. -/
def fallbackCode : String := "coolc::check"

/-- Whether a span covers bytes of a source text. -/
def covers (span : Span) (sourceText : String) : Bool :=
  !span.isEmpty && span.stop.toNat ≤ sourceText.utf8ByteSize

def ofDiagnostic (d : Diagnostic) (sourceName sourceText : String) : Notice :=
  { severity := d.severity
    code := d.code
    message := d.message
    sourceName
    sourceText
    span := if covers d.span sourceText then some d.span else none
    labelText := match d.severity with
      | .error => "error here"
      | .warning => "warning here"
    hint := d.hint }

/-! ## What a reader sees -/

def shownSeverity (n : Notice) : Severity := n.severity

def shownCode (n : Notice) : String := n.code.getD fallbackCode

def shownMessage (n : Notice) : String := n.message

def help? (n : Notice) : Option String := n.hint

def label? (n : Notice) : Option Label :=
  n.span.map fun span => .ofSpan span n.labelText

end Notice

/-- A diagnostic and the source text that it is to be shown beside. -/
structure LocatedDiagnostic where
  diagnostic : Diagnostic
  sourceName : String
  sourceText : String
deriving DecidableEq, Repr, Inhabited

namespace LocatedDiagnostic

def notice (d : LocatedDiagnostic) : Notice :=
  .ofDiagnostic d.diagnostic d.sourceName d.sourceText

def shownCode (d : LocatedDiagnostic) : String := d.notice.shownCode

def labelText (d : LocatedDiagnostic) : String := d.notice.labelText

def label? (d : LocatedDiagnostic) : Option Label := d.notice.label?

end LocatedDiagnostic

end CoolHierarchy
