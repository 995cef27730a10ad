import Supergraph.Schema.BuiltIn

/-!
# Names and references

The names that definitions may have, and what the parts of a schema may refer to:
roots to different object types, fields to output types, arguments and input
fields to input types, unions to object types.  The scalars of the language need
no definition.
-/

namespace Supergraph
namespace Schema

section Names

/-- No argument has a reserved name. -/
def argumentNamesFree (vs : List InputValue) : Bool :=
  vs.all (fun v => !v.name.isReserved)

/-- No part of the type has a reserved name. -/
def partNamesFree (t : TypeDef) : Bool :=
  t.body.fields.all (fun f => !f.name.isReserved && argumentNamesFree f.arguments)
    && t.body.values.all (fun v => !v.name.isReserved)
    && argumentNamesFree t.body.inputFields

/-- Neither the type nor any of its parts has a reserved name, except that a type in
the place of an introspection type may have that name. -/
def typeNamesFree (s : Schema) (t : TypeDef) : Bool :=
  (!t.name.isReserved || s.introspection.contains t.name) && partNamesFree t

/-- Neither the directive nor any of its arguments has a reserved name. -/
def directiveNamesFree (d : DirectiveDef) : Bool :=
  !d.name.isReserved && argumentNamesFree d.arguments

/-- No name of the schema is reserved. -/
def allNamesFree (s : Schema) : Bool :=
  s.types.items.all s.typeNamesFree && s.directives.items.all directiveNamesFree

/-- No two arguments have the same name. -/
def argumentNamesDistinct (vs : List InputValue) : Bool :=
  decide (vs.map InputValue.name).Nodup

/-- The arguments of every field and directive have distinct names. -/
def allArgumentNamesDistinct (s : Schema) : Bool :=
  s.types.items.all (fun t => t.body.fields.all (fun f => argumentNamesDistinct f.arguments))
    && s.directives.items.all (fun d => argumentNamesDistinct d.arguments)

end Names

section Roots

/-- The type is an object. -/
def isObject (s : Schema) (n : Name) : Bool :=
  match s.type? n with
  | some t => t.kind == .object
  | none => false

/-- There is a query root, and all roots are different object types. -/
def rootsValid (s : Schema) : Bool :=
  let roots := s.definition.roots.map (fun r => r.2.item)
  s.definition.query.isSome && roots.all s.isObject && decide roots.Nodup

end Roots

section Parts

/-- The type has something in it; a scalar needs nothing. -/
def typeHasParts (t : TypeDef) : Bool :=
  match t.body with
  | .scalar => true
  | .object _ fs => !fs.items.isEmpty
  | .interface _ fs => !fs.items.isEmpty
  | .union ms => !ms.items.isEmpty
  | .enum vs => !vs.items.isEmpty
  | .inputObject fs => !fs.items.isEmpty

/-- The type is one of those asked for, or an undefined scalar of the language. -/
def refersTo (s : Schema) (wanted : TypeDef → Bool) (r : TypeRef) : Bool :=
  match s.type? r.innermost with
  | some t => wanted t
  | none => BuiltIn.scalarNames.contains r.innermost

/-- The arguments are of input types. -/
def argumentTypesValid (s : Schema) (vs : List InputValue) : Bool :=
  vs.all (fun v => s.refersTo TypeDef.isInput v.type)

/-- The parts of the type are of types that they may be of. -/
def partTypesValid (s : Schema) (t : TypeDef) : Bool :=
  t.body.fields.all (fun f =>
      s.refersTo TypeDef.isOutput f.type && s.argumentTypesValid f.arguments)
    && s.argumentTypesValid t.body.inputFields
    && t.body.members.all s.isObject

/-- All types have parts, and everything is of a type that it may be of. -/
def allPartsValid (s : Schema) : Bool :=
  s.types.items.all (fun t => typeHasParts t && s.partTypesValid t)
    && s.directives.items.all (fun d => s.argumentTypesValid d.arguments)

end Parts

end Schema
end Supergraph
