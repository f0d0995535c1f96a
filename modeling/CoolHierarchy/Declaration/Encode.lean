import CoolHierarchy.Declaration
import CoolHierarchy.Json.Printer

/-!
# Writing declarations as JSON

Every record is an object with all of its fields. A feature names its kind in a member of its own.
-/

namespace CoolHierarchy

def Span.toJson (s : Span) : Json :=
  .ofMembers [("start", .ofNat s.start.toNat), ("end", .ofNat s.stop.toNat)]

def Identifier.toJson (i : Identifier) : Json :=
  .ofMembers [("name", .ofString i.name), ("span", i.span.toJson)]

def Formal.toJson (f : Formal) : Json :=
  .ofMembers [("name", .ofString f.name), ("type_name", .ofString f.typeName),
    ("span", f.span.toJson)]

def Feature.toJson : Feature → Json
  | .ofMethod m =>
    .ofMembers [("kind", .ofString "method"), ("name", .ofString m.name),
      ("formals", .array (m.formals.map Formal.toJson)), ("return_type", .ofString m.returnType),
      ("span", m.span.toJson)]
  | .ofAttribute a =>
    .ofMembers [("kind", .ofString "attribute"), ("name", .ofString a.name),
      ("type_name", .ofString a.typeName), ("span", a.span.toJson)]

def ClassDeclaration.toJson (d : ClassDeclaration) : Json :=
  .ofMembers [("name", d.name.toJson), ("parent", .ofOption Identifier.toJson d.parent),
    ("features", .array (d.features.map Feature.toJson)), ("span", d.span.toJson)]

def ClassDeclaration.toText (d : ClassDeclaration) : String :=
  d.toJson.render

end CoolHierarchy
