import Supergraph.Schema

/-!
# Implemented interfaces

A type that implements an interface also implements the interfaces of that
interface, and it has all of its fields: of the same type or of a subtype, with
arguments of the same types, and with no further argument that has to be given.
-/

namespace Supergraph
namespace Schema

/-- The type is a part of an abstract one: a member of a union, or an
implementation of an interface. -/
def isPartOf (s : Schema) (n abstract : Name) : Bool :=
  match s.type? abstract with
  | some a =>
      match a.kind with
      | .union => a.body.members.contains n
      | .interface =>
          match s.type? n with
          | some t => t.body.interfaces.contains abstract
          | none => false
      | _ => false
  | none => false

/-- Null may be lost, but not gained. -/
def nullFits (given asked : Bool) : Bool :=
  given || !asked

/-- A field of the first type may stand for one of the second. -/
def isSubtype (s : Schema) : TypeRef → TypeRef → Bool
  | .named n b, .named m c => nullFits b c && (n == m || s.isPartOf n m)
  | .list t b, .list u c => nullFits b c && s.isSubtype t u
  | _, _ => false

/-- The field stands for the field of an interface. -/
def fieldImplements (s : Schema) (f asked : Field) : Bool :=
  s.isSubtype f.type asked.type
    && asked.arguments.all (fun a =>
      match lookup a.name f.arguments with
      | some b => b.type == a.type
      | none => false)
    && f.arguments.all (fun b => (lookup b.name asked.arguments).isSome || !b.isRequired)

/-- The type implements the interface. -/
def implements (s : Schema) (t : TypeDef) (n : Name) : Bool :=
  match s.type? n with
  | some i =>
      i.kind == .interface && t.name != n
        && i.body.interfaces.all t.body.interfaces.contains
        && i.body.fields.all (fun asked =>
          match lookup asked.name t.body.fields with
          | some f => s.fieldImplements f asked
          | none => false)
  | none => false

/-- Every type implements the interfaces that it says it does. -/
def allImplement (s : Schema) : Bool :=
  s.types.items.all (fun t => t.body.interfaces.all (s.implements t))

end Schema
end Supergraph
