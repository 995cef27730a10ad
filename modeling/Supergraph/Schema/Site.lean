import Supergraph.Schema

/-!
# Changing a schema by hand

A `Site` names an element of a schema that directives can be attached to.
`Schema.attach?` appends an application there; on a type or on the schema it
belongs to the definition.  A `Member` is a type or directive definition as a
whole, to be put into a schema under its name.
-/

namespace Supergraph

/-- An element of a schema that directives are applied to.  A field is one of an
object, interface or input object, or a value of an enum. -/
inductive Site where
  | schema
  | type (type : Name)
  | field (type field : Name)
  | argument (type field argument : Name)
  | directiveArgument (directive argument : Name)
  deriving DecidableEq

/-- A type or directive definition. -/
inductive Member where
  | directive (d : DirectiveDef)
  | type (t : TypeDef)
  deriving DecidableEq

namespace Member

/-- The name of a member. -/
def name : Member → Name
  | .directive d => d.name
  | .type t => t.name

/-- The member of this name; only a type takes on another name. -/
def renamed (n : Name) : Member → Member
  | .directive d => .directive d
  | .type t => .type { t with name := n }

end Member

namespace InputValue

/-- Appends an application. -/
def attach (d : Directive) (v : InputValue) : InputValue :=
  { v with directives := v.directives ++ [d] }

/-- Appends an application to the first value of this name. -/
def attachIn? (d : Directive) (n : Name) (vs : List InputValue) : Option (List InputValue) :=
  (lookup n vs).map (fun v => putInto (v.attach d) vs)

end InputValue

namespace Sourced

/-- Changes the part and keeps its origin. -/
def map {α β : Type} (f : α → β) (x : Sourced α) : Sourced β :=
  ⟨x.origin, f x.item⟩

end Sourced

namespace TypeBody

/-- Appends an application to a field or enum value. -/
def attachToField? (d : Directive) (n : Name) : TypeBody → Option TypeBody
  | .object is fs =>
      (fs.get? n).map fun f =>
        .object is (fs.put (f.map fun f => { f with directives := f.directives ++ [d] }))
  | .interface is fs =>
      (fs.get? n).map fun f =>
        .interface is (fs.put (f.map fun f => { f with directives := f.directives ++ [d] }))
  | .enum vs =>
      (vs.get? n).map fun v =>
        .enum (vs.put (v.map fun v => { v with directives := v.directives ++ [d] }))
  | .inputObject fs =>
      (fs.get? n).map fun v => .inputObject (fs.put (v.map (InputValue.attach d)))
  | _ => none

/-- The field with an application appended to one of its arguments. -/
def attachToFieldArgument?
    (d : Directive)
    (n : Name)
    (f : Sourced Field) :
    Option (Sourced Field) :=
  (InputValue.attachIn? d n f.item.arguments).map fun as =>
    f.map fun f => { f with arguments := as }

/-- Appends an application to an argument of a field. -/
def attachToArgument? (d : Directive) (n a : Name) : TypeBody → Option TypeBody
  | .object is fs => do
      let f ← fs.get? n
      return .object is (fs.put (← attachToFieldArgument? d a f))
  | .interface is fs => do
      let f ← fs.get? n
      return .interface is (fs.put (← attachToFieldArgument? d a f))
  | _ => none

end TypeBody

namespace Schema

/-- Exchanges the body of a type. -/
def withBody? (s : Schema) (n : Name) (f : TypeBody → Option TypeBody) : Option Schema := do
  let t ← s.type? n
  let body ← f t.body
  return s.withTypes (s.types.put { t with body := body })

/-- Appends an application, if there is such an element. -/
def attach? (s : Schema) (d : Directive) : Site → Option Schema
  | .schema =>
      some { s with
        definition := { s.definition with
          directives := s.definition.directives ++ [⟨.definition, d⟩] } }
  | .type n => do
      let t ← s.type? n
      return s.withTypes
        (s.types.put { t with directives := t.directives ++ [⟨.definition, d⟩] })
  | .field n f => s.withBody? n (TypeBody.attachToField? d f)
  | .argument n f a => s.withBody? n (TypeBody.attachToArgument? d f a)
  | .directiveArgument n a => do
      let def' ← s.directive? n
      let as ← InputValue.attachIn? d a def'.arguments
      return { s with directives := s.directives.put { def' with arguments := as } }

/-- Puts a member in, under its name. -/
def put (s : Schema) : Member → Schema
  | .directive d => { s with directives := s.directives.put d }
  | .type t => s.withTypes (s.types.put t)

/-- Takes a type out. -/
def dropType (s : Schema) (n : Name) : Schema :=
  s.withTypes (s.types.erase n)

/-- Takes a directive definition out. -/
def dropDirective (s : Schema) (n : Name) : Schema :=
  { s with directives := s.directives.erase n }

/-- The first directive definition that is not built in or, if there is none, the
first such type. -/
def firstMember? (s : Schema) : Option Member :=
  match s.directives.items.find? (fun d => !d.builtIn) with
  | some d => some (.directive d)
  | none => (s.types.items.find? (fun t => !t.builtIn)).map .type

end Schema

end Supergraph
