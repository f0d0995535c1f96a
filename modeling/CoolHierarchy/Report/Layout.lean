import CoolHierarchy.Layout.Table

/-!
# Printed layouts

One block per class: its attributes with their offsets, then its methods with their slots.
-/

namespace CoolHierarchy

def Formal.render (f : Formal) : String :=
  s!"{f.name} : {f.typeName}"

def AttributeRow.render (a : AttributeRow) : String :=
  s!"    [{a.offset}] {a.name} : {a.typeName} ({a.definedIn})\n"

def MethodRow.render (m : MethodRow) : String :=
  let formals := ", ".intercalate (m.formals.map Formal.render)
  s!"    [{m.slot}] {m.name}({formals}) : {m.returnType} ({m.definedIn})\n"

/-- Rows below each other, or a note that there are none. -/
def renderRows (rows : List String) : String :=
  if rows.isEmpty then "    (none)\n" else String.join rows

def Layout.render (l : Layout) : String :=
  s!"class {l.className}\n"
    ++ "  attributes:\n" ++ renderRows (l.attributes.map AttributeRow.render)
    ++ "  methods:\n" ++ renderRows (l.methods.map MethodRow.render)

/-- The blocks of all classes, parted by blank lines. -/
def LayoutTable.render (t : LayoutTable) : String :=
  "\n".intercalate (t.layouts.map Layout.render)

end CoolHierarchy
