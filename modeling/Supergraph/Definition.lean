import Supergraph.Directive.Location
import Supergraph.Selection
import Supergraph.TypeRef

/-!
# Definitions

The definitions of a document as they are written, before anything is known
about what they refer to.  A type and an extension of it have the same form; an
extension has no description.
-/

namespace Supergraph

/-- An argument of a field or directive, or a field of an input object. -/
structure InputValue where
  description : Option String
  name : Name
  type : TypeRef
  default : Option Value
  directives : List Directive
  deriving DecidableEq

/-- A field of an object or interface. -/
structure Field where
  description : Option String
  name : Name
  arguments : List InputValue
  type : TypeRef
  directives : List Directive
  deriving DecidableEq

/-- A value of an enum. -/
structure EnumValue where
  description : Option String
  name : Name
  directives : List Directive
  deriving DecidableEq

/-- A directive.  The definitions that every schema begins with are built in. -/
structure DirectiveDef where
  description : Option String
  name : Name
  arguments : List InputValue
  repeatable : Bool
  locations : List Location
  builtIn : Bool
  deriving DecidableEq

instance : Keyed InputValue where
  key v := v.name

instance : Keyed Field where
  key f := f.name

instance : Keyed EnumValue where
  key v := v.name

instance : Keyed DirectiveDef where
  key d := d.name

/-- The six kinds of types. -/
inductive TypeKind where
  | scalar
  | object
  | interface
  | union
  | enum
  | inputObject
  deriving DecidableEq

/-- The contents of a type or type extension as they are written. -/
inductive TypeContents where
  | scalar
  | object (interfaces : List Name) (fields : List Field)
  | interface (interfaces : List Name) (fields : List Field)
  | union (members : List Name)
  | enum (values : List EnumValue)
  | inputObject (fields : List InputValue)
  deriving DecidableEq

/-- A type or type extension as it is written. -/
structure TypeText where
  description : Option String
  name : Name
  directives : List Directive
  contents : TypeContents
  deriving DecidableEq

/-- The operations that a schema can have a root for. -/
inductive OperationKind where
  | query
  | mutation
  | subscription
  deriving DecidableEq

/-- The schema definition or an extension of it as it is written. -/
structure SchemaText where
  description : Option String
  directives : List Directive
  roots : List (OperationKind × Name)
  deriving DecidableEq

/-- A variable of an operation. -/
structure VariableDef where
  name : Name
  type : TypeRef
  default : Option Value
  directives : List Directive
  deriving DecidableEq

/-- A definition of the type system: what a schema is made of. -/
inductive SystemDefinition where
  | schema (text : SchemaText)
  | schemaExtension (text : SchemaText)
  | type (text : TypeText)
  | typeExtension (text : TypeText)
  | directive (d : DirectiveDef)
  deriving DecidableEq

/-- A definition of a document: of the type system, or to be executed. -/
inductive Definition where
  | system (d : SystemDefinition)
  | operation
      (kind : OperationKind)
      (name : Option Name)
      (inputs : List VariableDef)
      (directives : List Directive)
      (selections : List Selection)
  | fragment
      (name : Name)
      (condition : Name)
      (directives : List Directive)
      (selections : List Selection)

/-- A document is a list of definitions. -/
abbrev Document := List Definition

namespace TypeKind

/-- The kind of a type in words. -/
def text : TypeKind → String
  | .scalar => "scalar type"
  | .object => "object type"
  | .interface => "interface type"
  | .union => "union type"
  | .enum => "enum type"
  | .inputObject => "input object type"

/-- The word that begins a definition of this kind. -/
def keyword : TypeKind → Keyword
  | .scalar => .scalar
  | .object => .type
  | .interface => .interface
  | .union => .union
  | .enum => .enum
  | .inputObject => .input

end TypeKind

namespace TypeContents

/-- The kind of the type. -/
def kind : TypeContents → TypeKind
  | .scalar => .scalar
  | .object _ _ => .object
  | .interface _ _ => .interface
  | .union _ => .union
  | .enum _ => .enum
  | .inputObject _ => .inputObject

/-- There is nothing in it. -/
def isEmpty : TypeContents → Bool
  | .scalar => true
  | .object is fs => is.isEmpty && fs.isEmpty
  | .interface is fs => is.isEmpty && fs.isEmpty
  | .union ms => ms.isEmpty
  | .enum vs => vs.isEmpty
  | .inputObject fs => fs.isEmpty

end TypeContents

namespace OperationKind

/-- All operations, in the order in which a schema lists its roots. -/
def all : List OperationKind :=
  [.query, .mutation, .subscription]

/-- The word for an operation. -/
def keyword : OperationKind → Keyword
  | .query => .query
  | .mutation => .mutation
  | .subscription => .subscription

/-- The operation that a word stands for. -/
def ofName? (n : Name) : Option OperationKind :=
  all.find? (fun k => k.keyword.name == n)

/-- A type of this name is a root without being declared one. -/
def defaultRoot : OperationKind → Name
  | .query => ⟨"Query", by decide⟩
  | .mutation => ⟨"Mutation", by decide⟩
  | .subscription => ⟨"Subscription", by decide⟩

end OperationKind

namespace InputValue

/-- It has to be given: null is not among its values and there is no default. -/
def isRequired (v : InputValue) : Bool :=
  v.type.isNonNull && v.default.isNone

end InputValue

end Supergraph
