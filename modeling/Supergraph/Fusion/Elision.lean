import Supergraph.Fusion.Target

/-!
# Elision

`Target.elide` is the schema without what composition put in: without the marked
types and directive definitions, and without every application of a marked
directive, wherever it stands.  Everything else stays as it is and in its order.
-/

namespace Supergraph

/-- Which types or directives are to disappear, by their names. -/
abbrev Hidden := Name → Bool

namespace Directive

/-- The applications of other directives. -/
def elideList (hidden : Hidden) (ds : List Directive) : List Directive :=
  ds.filter (fun d => !hidden d.name)

/-- The applications of other directives, with their origins. -/
def elideSourced (hidden : Hidden) (ds : List (Sourced Directive)) : List (Sourced Directive) :=
  ds.filter (fun d => !hidden d.item.name)

end Directive

namespace InputValue

/-- An argument or input field without hidden applications. -/
def elide (hidden : Hidden) (v : InputValue) : InputValue :=
  { v with directives := Directive.elideList hidden v.directives }

end InputValue

namespace Field

/-- A field without hidden applications on itself or its arguments. -/
def elide (hidden : Hidden) (f : Field) : Field :=
  { f with
    arguments := f.arguments.map (InputValue.elide hidden)
    directives := Directive.elideList hidden f.directives }

end Field

namespace EnumValue

/-- An enum value without hidden applications. -/
def elide (hidden : Hidden) (v : EnumValue) : EnumValue :=
  { v with directives := Directive.elideList hidden v.directives }

end EnumValue

namespace TypeBody

/-- The contents of a type without hidden applications. -/
def elide (hidden : Hidden) : TypeBody → TypeBody
  | .scalar => .scalar
  | .object is fs =>
      .object is
        (fs.mapValues (fun f => ⟨f.origin, f.item.elide hidden⟩) (fun _ => rfl))
  | .interface is fs =>
      .interface is
        (fs.mapValues (fun f => ⟨f.origin, f.item.elide hidden⟩) (fun _ => rfl))
  | .union ms => .union ms
  | .enum vs =>
      .enum (vs.mapValues (fun v => ⟨v.origin, v.item.elide hidden⟩) (fun _ => rfl))
  | .inputObject fs =>
      .inputObject (fs.mapValues (fun f => ⟨f.origin, f.item.elide hidden⟩) (fun _ => rfl))

end TypeBody

namespace TypeDef

/-- A type without hidden applications. -/
def elide (hidden : Hidden) (t : TypeDef) : TypeDef :=
  { t with
    directives := Directive.elideSourced hidden t.directives
    body := t.body.elide hidden }

end TypeDef

namespace DirectiveDef

/-- A directive definition without hidden applications on its arguments. -/
def elide (hidden : Hidden) (d : DirectiveDef) : DirectiveDef :=
  { d with arguments := d.arguments.map (InputValue.elide hidden) }

end DirectiveDef

namespace SchemaDef

/-- The schema definition without hidden applications. -/
def elide (hidden : Hidden) (d : SchemaDef) : SchemaDef :=
  { d with directives := Directive.elideSourced hidden d.directives }

end SchemaDef

namespace Schema

/-- The schema without hidden types, and without hidden directives and their
applications. -/
def elide (hiddenType hidden : Hidden) (s : Schema) : Schema :=
  { s.withTypes
      ((s.types.filter (fun t => !hiddenType t.name)).mapValues
        (TypeDef.elide hidden) (fun _ => rfl)) with
    definition := s.definition.elide hidden
    directives :=
      (s.directives.filter (fun d => !hidden d.name)).mapValues
        (DirectiveDef.elide hidden) (fun _ => rfl) }

end Schema

namespace Target

/-- The schema without what composition put in. -/
def elide (f : Target) : Schema :=
  f.schema.elide f.isMarkedType f.isMarkedDirective

end Target

end Supergraph
