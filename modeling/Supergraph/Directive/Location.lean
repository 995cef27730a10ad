import Supergraph.Token.Keyword

/-!
# Directive locations

The elements of operations and schemas to which a directive may be applied.
-/

namespace Supergraph

/-- An element to which a directive may be applied. -/
inductive Location where
  | query
  | mutation
  | subscription
  | field
  | fragmentDefinition
  | fragmentSpread
  | inlineFragment
  | variableDefinition
  | schema
  | scalar
  | object
  | fieldDefinition
  | argumentDefinition
  | interface
  | union
  | enum
  | enumValue
  | inputObject
  | inputFieldDefinition
  deriving DecidableEq

namespace Location

/-- The name of a location. -/
def name : Location → Name
  | .query => ⟨"QUERY", by decide⟩
  | .mutation => ⟨"MUTATION", by decide⟩
  | .subscription => ⟨"SUBSCRIPTION", by decide⟩
  | .field => ⟨"FIELD", by decide⟩
  | .fragmentDefinition => ⟨"FRAGMENT_DEFINITION", by decide⟩
  | .fragmentSpread => ⟨"FRAGMENT_SPREAD", by decide⟩
  | .inlineFragment => ⟨"INLINE_FRAGMENT", by decide⟩
  | .variableDefinition => ⟨"VARIABLE_DEFINITION", by decide⟩
  | .schema => ⟨"SCHEMA", by decide⟩
  | .scalar => ⟨"SCALAR", by decide⟩
  | .object => ⟨"OBJECT", by decide⟩
  | .fieldDefinition => ⟨"FIELD_DEFINITION", by decide⟩
  | .argumentDefinition => ⟨"ARGUMENT_DEFINITION", by decide⟩
  | .interface => ⟨"INTERFACE", by decide⟩
  | .union => ⟨"UNION", by decide⟩
  | .enum => ⟨"ENUM", by decide⟩
  | .enumValue => ⟨"ENUM_VALUE", by decide⟩
  | .inputObject => ⟨"INPUT_OBJECT", by decide⟩
  | .inputFieldDefinition => ⟨"INPUT_FIELD_DEFINITION", by decide⟩

/-- All locations, each once. -/
def all : List Location :=
  [.query, .mutation, .subscription, .field, .fragmentDefinition, .fragmentSpread,
    .inlineFragment, .variableDefinition, .schema, .scalar, .object, .fieldDefinition,
    .argumentDefinition, .interface, .union, .enum, .enumValue, .inputObject,
    .inputFieldDefinition]

/-- The location of this name. -/
def ofName? (n : Name) : Option Location :=
  all.find? (fun l => l.name == n)

theorem ofName?_name
    (l : Location) :
    ofName? l.name = some l := by
  cases l <;> decide

/-- The location as it is written. -/
def layout (l : Location) : Layout :=
  Layout.name l.name

/-- Reads a location. -/
def read : Reader Location := do
  match ofName? (← Reader.name) with
  | some l => return l
  | none => failure

end Location

end Supergraph
