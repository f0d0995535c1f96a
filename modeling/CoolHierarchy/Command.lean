import CoolHierarchy.Report.Check
import CoolHierarchy.Report.Tree
import CoolHierarchy.Report.Layout

/-!
# Commands

What can be asked of a session. An answer is the text that is printed; a question without an
answer prints nothing and fails with the message of its `QueryError`.
-/

namespace CoolHierarchy

inductive Command where
  | check (format : ReportFormat)
  | hierarchy
  | conforms (sub sup : String)
  | join (left right : String)
  | layout (className : Option String)
deriving DecidableEq, Repr, Inhabited

namespace Outcome

/-- An answer that is printed, or the reason why there is none. -/
def ofAnswer (render : α → String) : Except QueryError α → Outcome
  | .ok a => { output := render a }
  | .error e => { failure := some e.message }

end Outcome

namespace Command

def run (s : Session) : Command → Outcome
  | check format => s.check format
  | hierarchy => { output := s.hierarchy.renderHierarchy }
  | conforms sub sup =>
    .ofAnswer (fun b => if b then "true\n" else "false\n") (s.hierarchy.conformsByName sub sup)
  | join left right => .ofAnswer (fun name => name ++ "\n") (s.hierarchy.joinByName left right)
  | layout none => { output := (LayoutTable.build s.hierarchy).render }
  | layout (some name) => .ofAnswer Layout.render (Layout.compute s.hierarchy name)

end Command

end CoolHierarchy
