import Supergraph.Table
import Supergraph.Definition

/-!
# Schemas

A schema holds the schema definition, the directive definitions and the types,
each table in order of insertion.  A type is a single whole, whatever was written
in its definition and in its extensions; every part of it remembers where it
comes from (`Origin`), so that it can be written out again as it was.

A definition is *built in* if it is one of those that every schema begins with.
This belongs to the definition and not to its name.  The right to a name that the
language reserves for introspection, on the other hand, belongs to a place in the
table of types.
-/

namespace Supergraph

/-- Where a part of a type or of the schema definition comes from. -/
inductive Origin where
  | definition
  | extension (index : Nat)
  deriving DecidableEq

/-- A part of a type or of the schema definition, with its origin. -/
structure Sourced (α : Type) where
  origin : Origin
  item : α
  deriving DecidableEq

instance {α : Type} [Keyed α] : Keyed (Sourced α) where
  key s := key s.item

/-- What a type consists of besides its name, description and directives. -/
inductive TypeBody where
  | scalar
  | object (interfaces : Table (Sourced Name)) (fields : Table (Sourced Field))
  | interface (interfaces : Table (Sourced Name)) (fields : Table (Sourced Field))
  | union (members : Table (Sourced Name))
  | enum (values : Table (Sourced EnumValue))
  | inputObject (fields : Table (Sourced InputValue))
  deriving DecidableEq

/-- A type with all of its extensions. -/
structure TypeDef where
  description : Option String
  name : Name
  builtIn : Bool
  directives : List (Sourced Directive)
  body : TypeBody
  deriving DecidableEq

instance : Keyed TypeDef where
  key t := t.name

/-- The schema definition with all of its extensions. -/
structure SchemaDef where
  description : Option String
  directives : List (Sourced Directive)
  query : Option (Sourced Name)
  mutation : Option (Sourced Name)
  subscription : Option (Sourced Name)
  deriving DecidableEq

/-- A schema. -/
@[ext]
structure Schema where
  definition : SchemaDef
  directives : Table DirectiveDef
  types : Table TypeDef
  /-- The introspection types that were never taken out.  Another definition may
  have been put in the place of one; a type that was taken out and put back is not
  among them. -/
  introspection : List Name
  /-- Their places are in the table. -/
  introspection_sub : ∀ n ∈ introspection, n ∈ types.keys
  deriving DecidableEq

namespace Sourced

variable {α : Type}

/-- The parts that come from one place, in order. -/
def fromOrigin (o : Origin) (xs : List (Sourced α)) : List α :=
  xs.filterMap (fun x => if x.origin = o then some x.item else none)

/-- All of these come from one place. -/
def allFrom (o : Origin) (xs : List α) : List (Sourced α) :=
  xs.map (fun x => ⟨o, x⟩)

end Sourced

namespace TypeBody

/-- The kind of the type. -/
def kind : TypeBody → TypeKind
  | .scalar => .scalar
  | .object _ _ => .object
  | .interface _ _ => .interface
  | .union _ => .union
  | .enum _ => .enum
  | .inputObject _ => .inputObject

/-- A type of this kind without contents. -/
def ofKind : TypeKind → TypeBody
  | .scalar => .scalar
  | .object => .object .empty .empty
  | .interface => .interface .empty .empty
  | .union => .union .empty
  | .enum => .enum .empty
  | .inputObject => .inputObject .empty

/-- The implemented interfaces of an object or interface. -/
def interfaces : TypeBody → List Name
  | .object is _ => is.keys
  | .interface is _ => is.keys
  | _ => []

/-- The fields of an object or interface. -/
def fields : TypeBody → List Field
  | .object _ fs => fs.items.map Sourced.item
  | .interface _ fs => fs.items.map Sourced.item
  | _ => []

/-- The members of a union. -/
def members : TypeBody → List Name
  | .union ms => ms.keys
  | _ => []

/-- The values of an enum. -/
def values : TypeBody → List EnumValue
  | .enum vs => vs.items.map Sourced.item
  | _ => []

/-- The fields of an input object. -/
def inputFields : TypeBody → List InputValue
  | .inputObject fs => fs.items.map Sourced.item
  | _ => []

end TypeBody

namespace TypeDef

/-- The kind of the type. -/
def kind (t : TypeDef) : TypeKind :=
  t.body.kind

/-- The directives applied to the type itself. -/
def applications (t : TypeDef) : List Directive :=
  t.directives.map Sourced.item

/-- A scalar that every schema begins with. -/
def isBuiltInScalar (t : TypeDef) : Bool :=
  t.builtIn && t.kind == .scalar

/-- A scalar of an author's own, or one that took the place of a built-in one. -/
def isCustomScalar (t : TypeDef) : Bool :=
  !t.builtIn && t.kind == .scalar

/-- A scalar without description or directives. -/
def plainScalar (n : Name) : TypeDef where
  description := none
  name := n
  builtIn := false
  directives := []
  body := .scalar

/-- Arguments and input fields may be of this type. -/
def isInput (t : TypeDef) : Bool :=
  match t.kind with
  | .scalar => true
  | .enum => true
  | .inputObject => true
  | _ => false

/-- Fields may be of this type. -/
def isOutput (t : TypeDef) : Bool :=
  t.kind != .inputObject

end TypeDef

namespace SchemaDef

/-- A schema definition that says nothing. -/
def empty : SchemaDef where
  description := none
  directives := []
  query := none
  mutation := none
  subscription := none

/-- The root of an operation. -/
def root (d : SchemaDef) : OperationKind → Option (Sourced Name)
  | .query => d.query
  | .mutation => d.mutation
  | .subscription => d.subscription

/-- Declares the root of an operation. -/
def withRoot (d : SchemaDef) (k : OperationKind) (r : Sourced Name) : SchemaDef :=
  match k with
  | .query => { d with query := some r }
  | .mutation => { d with mutation := some r }
  | .subscription => { d with subscription := some r }

/-- The declared roots: query, mutation, subscription. -/
def roots (d : SchemaDef) : List (OperationKind × Sourced Name) :=
  OperationKind.all.filterMap (fun k => (d.root k).map (fun r => (k, r)))

/-- The directives applied to the schema. -/
def applications (d : SchemaDef) : List Directive :=
  d.directives.map Sourced.item

end SchemaDef

namespace Schema

/-- The schema with other types.  An introspection type that is not among them has
been taken out. -/
def withTypes (s : Schema) (types : Table TypeDef) : Schema :=
  { s with
    types := types
    introspection := types.present s.introspection
    introspection_sub := fun _ h => Table.mem_keys_of_mem_present h }

/-- The type of this name. -/
def type? (s : Schema) (n : Name) : Option TypeDef :=
  s.types.get? n

/-- The directive definition of this name. -/
def directive? (s : Schema) (n : Name) : Option DirectiveDef :=
  s.directives.get? n

/-- The type that is the root of an operation without being declared one: an
object type of the operation's default name. -/
def impliedRoot? (types : Table TypeDef) (k : OperationKind) : Option Name :=
  match types.get? k.defaultRoot with
  | some t => if t.kind = .object then some t.name else none
  | none => none

end Schema

end Supergraph
