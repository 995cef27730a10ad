import Supergraph.Validity.Conformance

/-!
# Directives in their places

Every application of a directive has to fit the definition: in a location that it
lists, with arguments that it declares, each at most once and with a value of its
type, with all that it requires, and no second time unless it is repeatable.  A
definition and its extensions count as one place.
-/

namespace Supergraph
namespace Schema

/-- Every argument is declared and has a value of its type. -/
def argumentsConform (s : Schema) (d : DirectiveDef) (a : Directive) : Bool :=
  a.arguments.all fun x =>
    match lookup x.name d.arguments with
    | some v => s.conforms x.value v.type
    | none => false

/-- Every required argument is given, and not as null. -/
def argumentsComplete (d : DirectiveDef) (a : Directive) : Bool :=
  d.arguments.all fun v =>
    !v.isRequired
      || (match a.argument? v.name with
        | some x => !x.isNull
        | none => false)

/-- No argument is given twice. -/
def argumentsDistinct (a : Directive) : Bool :=
  decide (a.arguments.map Argument.name).Nodup

/-- The application fits its definition. -/
def applicationFits (s : Schema) (l : Location) (a : Directive) : Bool :=
  match s.directive? a.name with
  | none => false
  | some d =>
      d.locations.contains l && argumentsDistinct a
        && s.argumentsConform d a && argumentsComplete d a

/-- The directive may be applied more than once in one place. -/
def isRepeatable (s : Schema) (n : Name) : Bool :=
  match s.directive? n with
  | some d => d.repeatable
  | none => false

/-- No directive is applied twice that may not be. -/
def repeatsAllowed (s : Schema) (ds : List Directive) : Bool :=
  ds.all fun a => s.isRepeatable a.name || ds.countP (fun b => b.name == a.name) == 1

/-- The applications in one place are right. -/
def applicationsFit (s : Schema) (l : Location) (ds : List Directive) : Bool :=
  ds.all (s.applicationFits l) && s.repeatsAllowed ds

/-- The applications on arguments are right. -/
def argumentApplicationsFit (s : Schema) (vs : List InputValue) : Bool :=
  vs.all (fun v => s.applicationsFit .argumentDefinition v.directives)

end Schema

namespace TypeKind

/-- The location of the types of a kind. -/
def location : TypeKind → Location
  | .scalar => .scalar
  | .object => .object
  | .interface => .interface
  | .union => .union
  | .enum => .enum
  | .inputObject => .inputObject

end TypeKind

namespace Schema

/-- The applications on a type and on its parts are right; those on built-in
scalars are not looked at. -/
def typeApplicationsFit (s : Schema) (t : TypeDef) : Bool :=
  t.isBuiltInScalar
    || (s.applicationsFit t.kind.location t.applications
      && t.body.fields.all (fun f =>
        s.applicationsFit .fieldDefinition f.directives && s.argumentApplicationsFit f.arguments)
      && t.body.values.all (fun v => s.applicationsFit .enumValue v.directives)
      && t.body.inputFields.all (fun v => s.applicationsFit .inputFieldDefinition v.directives))

/-- All applications in the schema are right. -/
def allApplicationsFit (s : Schema) : Bool :=
  s.applicationsFit .schema s.definition.applications
    && s.directives.items.all (fun d => s.argumentApplicationsFit d.arguments)
    && s.types.items.all s.typeApplicationsFit

end Schema
end Supergraph
