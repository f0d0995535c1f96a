import CoolHierarchy.Diagnostic

/-!
# What can be wrong with a hierarchy

Problems of a program are `HierarchyError`s: they are collected, and none of them stops an analysis.
A question that has no answer on a finished hierarchy fails with a `QueryError` instead.
-/

namespace CoolHierarchy

inductive Fault where
  | duplicateClass (name : String)
  | reservedName (name : String)
  | sealedParent (className parent : String)
  | undeclaredParent (className parent : String)
  /-- Each class of the path is a child of the next one, and the last of the first. -/
  | inheritanceCycle (path : List String)
  /-- No declared class bears the name of the entry class. -/
  | missingEntry (name : String)
deriving DecidableEq, Repr, Inhabited

namespace Fault

/-- A cycle written as a walk that comes back to its start. -/
def renderCycle (path : List String) : String :=
  " -> ".intercalate (path ++ path.head?.toList)

def message : Fault → String
  | duplicateClass name => s!"class '{name}' has been redefined"
  | reservedName name => s!"Cannot redefine base class '{name}'"
  | sealedParent _ parent => s!"Cannot inherit base class '{parent}'"
  | undeclaredParent className parent =>
    s!"Inherited class '{parent}' for '{className}' has not been declared"
  | inheritanceCycle path => s!"Classes have cyclic dependency: {renderCycle path}"
  | missingEntry name => s!"'{name}' class is missing."

def code : Fault → String
  | duplicateClass _ => "coolc::class_graph::duplicate_class"
  | reservedName _ => "coolc::class_graph::restricted_class_redefinition"
  | sealedParent _ _ => "coolc::class_graph::restricted_inheritance"
  | undeclaredParent _ _ => "coolc::class_graph::undeclared_parent"
  | inheritanceCycle _ => "coolc::class_graph::cyclic_inheritance"
  | missingEntry _ => "coolc::class_graph::missing_main_class"

def hint? : Fault → Option String
  | sealedParent _ _ => some "Int, String and Bool are sealed; inherit from Object or IO instead"
  | missingEntry name => some s!"declare a class named '{name}' as the program entry point"
  | _ => none

end Fault

/-- A problem and the declaration that it is blamed on. -/
structure HierarchyError where
  fault : Fault
  span : Span := .origin
deriving DecidableEq, Repr, Inhabited

namespace HierarchyError

def message (e : HierarchyError) : String := e.fault.message

def code (e : HierarchyError) : String := e.fault.code

def hint? (e : HierarchyError) : Option String := e.fault.hint?

/-- An error points at its span, unless there is nothing to see there. -/
def label? (e : HierarchyError) : Option Label :=
  if e.span.isEmpty then none else some (.ofSpan e.span "here")

def toDiagnostic (e : HierarchyError) : Diagnostic :=
  { message := e.message, span := e.span, hint := e.hint?, code := some e.code }

end HierarchyError

/-- Why a question about a finished hierarchy has no answer. -/
inductive QueryError where
  | unknownClass (name : String)
  | noCommonAncestor (left right : String)
  | brokenChain (className : String)
deriving DecidableEq, Repr, Inhabited

namespace QueryError

def message : QueryError → String
  | unknownClass name => s!"class '{name}' is not defined"
  | noCommonAncestor left right => s!"classes '{left}' and '{right}' share no common ancestor"
  | brokenChain className => s!"ancestor chain of '{className}' does not reach the root class"

end QueryError

end CoolHierarchy
