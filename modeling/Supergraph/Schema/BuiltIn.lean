import Supergraph.Schema

/-!
# Built-in definitions

Every schema begins with the introspection types, the five scalars of the
language and its four directives.
-/

namespace Supergraph
namespace BuiltIn

section Names

/-- The scalar `Int`. -/
def int : Name := ⟨"Int", by decide⟩

/-- The scalar `Float`. -/
def float : Name := ⟨"Float", by decide⟩

/-- The scalar `String`. -/
def string : Name := ⟨"String", by decide⟩

/-- The scalar `Boolean`. -/
def boolean : Name := ⟨"Boolean", by decide⟩

/-- The scalar `ID`. -/
def id : Name := ⟨"ID", by decide⟩

/-- The type of `__schema`. -/
def schemaType : Name := ⟨"__Schema", by decide⟩

/-- The description of a type. -/
def typeType : Name := ⟨"__Type", by decide⟩

/-- The kinds of types. -/
def typeKind : Name := ⟨"__TypeKind", by decide⟩

/-- The description of a field. -/
def fieldType : Name := ⟨"__Field", by decide⟩

/-- The description of an argument or input field. -/
def inputValueType : Name := ⟨"__InputValue", by decide⟩

/-- The description of an enum value. -/
def enumValueType : Name := ⟨"__EnumValue", by decide⟩

/-- The description of a directive. -/
def directiveType : Name := ⟨"__Directive", by decide⟩

/-- The locations of directives. -/
def directiveLocation : Name := ⟨"__DirectiveLocation", by decide⟩

/-- The field for the name of an element. -/
def nameField : Name := ⟨"name", by decide⟩

/-- The field for the kind of a type. -/
def kindField : Name := ⟨"kind", by decide⟩

/-- The field for the types of a schema. -/
def typesField : Name := ⟨"types", by decide⟩

/-- The field for the type of an element, which is spelled as the keyword. -/
def typeField : Name := Keyword.type.name

end Names

/-- The names of the scalars, in their order. -/
def scalarNames : List Name :=
  [int, float, string, boolean, id]

section Parts

/-- `n` -/
def nullable (n : Name) : TypeRef := .named n false

/-- `n!` -/
def required (n : Name) : TypeRef := .named n true

/-- `[n!]` -/
def listOf (n : Name) : TypeRef := .list (.named n true) false

/-- `[n!]!` -/
def requiredListOf (n : Name) : TypeRef := .list (.named n true) true

/-- A field without arguments. -/
def field (n : Name) (t : TypeRef) : Sourced Field :=
  ⟨.definition, ⟨none, n, [], t, []⟩⟩

/-- `includeDeprecated: Boolean = false` -/
def includeDeprecated : InputValue :=
  ⟨none, ⟨"includeDeprecated", by decide⟩, nullable boolean, some (.boolean false), []⟩

/-- A field that may leave out what is deprecated. -/
def filteredField (n : Name) (t : TypeRef) : Sourced Field :=
  ⟨.definition, ⟨none, n, [includeDeprecated], t, []⟩⟩

/-- A value of an enum. -/
def value (n : Name) : Sourced EnumValue :=
  ⟨.definition, ⟨none, n, []⟩⟩

/-- A type that every schema begins with. -/
def typeDef (n : Name) (body : TypeBody) : TypeDef where
  description := none
  name := n
  builtIn := true
  directives := []
  body := body

/-- A scalar that every schema begins with. -/
def scalar (n : Name) : TypeDef :=
  typeDef n .scalar

/-- An object without interfaces. -/
def object (n : Name) (fields : Table (Sourced Field)) : TypeDef :=
  typeDef n (.object .empty fields)

end Parts

/-- The introspection types, in their order. -/
def introspectionTypes : List TypeDef :=
  [ object schemaType
      { items :=
          [ field ⟨"description", by decide⟩ (nullable string),
            field typesField (requiredListOf typeType),
            field ⟨"queryType", by decide⟩ (required typeType),
            field ⟨"mutationType", by decide⟩ (nullable typeType),
            field ⟨"subscriptionType", by decide⟩ (nullable typeType),
            field ⟨"directives", by decide⟩ (requiredListOf directiveType) ]
        nodup := by decide },
    object typeType
      { items :=
          [ field kindField (required typeKind),
            field nameField (nullable string),
            field ⟨"description", by decide⟩ (nullable string),
            filteredField ⟨"fields", by decide⟩ (listOf fieldType),
            field ⟨"interfaces", by decide⟩ (listOf typeType),
            field ⟨"possibleTypes", by decide⟩ (listOf typeType),
            filteredField ⟨"enumValues", by decide⟩ (listOf enumValueType),
            filteredField ⟨"inputFields", by decide⟩ (listOf inputValueType),
            field ⟨"ofType", by decide⟩ (nullable typeType),
            field ⟨"specifiedByURL", by decide⟩ (nullable string) ]
        nodup := by decide },
    typeDef typeKind
      (.enum
        { items :=
            [ value Location.scalar.name,
              value Location.object.name,
              value Location.interface.name,
              value Location.union.name,
              value Location.enum.name,
              value Location.inputObject.name,
              value ⟨"LIST", by decide⟩,
              value ⟨"NON_NULL", by decide⟩ ]
          nodup := by decide }),
    object fieldType
      { items :=
          [ field nameField (required string),
            field ⟨"description", by decide⟩ (nullable string),
            filteredField ⟨"args", by decide⟩ (requiredListOf inputValueType),
            field typeField (required typeType),
            field ⟨"isDeprecated", by decide⟩ (required boolean),
            field ⟨"deprecationReason", by decide⟩ (nullable string) ]
        nodup := by decide },
    object inputValueType
      { items :=
          [ field nameField (required string),
            field ⟨"description", by decide⟩ (nullable string),
            field typeField (required typeType),
            field ⟨"defaultValue", by decide⟩ (nullable string),
            field ⟨"isDeprecated", by decide⟩ (required boolean),
            field ⟨"deprecationReason", by decide⟩ (nullable string) ]
        nodup := by decide },
    object enumValueType
      { items :=
          [ field nameField (required string),
            field ⟨"description", by decide⟩ (nullable string),
            field ⟨"isDeprecated", by decide⟩ (required boolean),
            field ⟨"deprecationReason", by decide⟩ (nullable string) ]
        nodup := by decide },
    object directiveType
      { items :=
          [ field nameField (required string),
            field ⟨"description", by decide⟩ (nullable string),
            field ⟨"locations", by decide⟩ (requiredListOf directiveLocation),
            filteredField ⟨"args", by decide⟩ (requiredListOf inputValueType),
            field ⟨"isRepeatable", by decide⟩ (required boolean) ]
        nodup := by decide },
    typeDef directiveLocation
      (.enum
        { items := Location.all.map (fun l => value l.name)
          nodup := by decide }) ]

/-- The names of the introspection types. -/
def introspectionNames : List Name :=
  introspectionTypes.map TypeDef.name

/-- The built-in types, in their order. -/
def types : Table TypeDef where
  items := introspectionTypes ++ scalarNames.map scalar
  nodup := by decide

section Directives

/-- A link in Markdown to the entry page of a site. -/
def siteLink (text host : String) : String :=
  "[" ++ text ++ "](https:" ++ "//" ++ host ++ "/)"

/-- A built-in directive with one argument. -/
def directive
    (n : Name)
    (description : String)
    (argument : InputValue)
    (locations : List Location) :
    DirectiveDef where
  description := some description
  name := n
  arguments := [argument]
  repeatable := false
  locations := locations
  builtIn := true

/-- Leaves out a selection if its argument is true. -/
def skip : DirectiveDef :=
  directive ⟨"skip", by decide⟩
    "Directs the executor to skip this field or fragment when the `if` argument is true."
    ⟨some "Skipped when true.", ⟨"if", by decide⟩, required boolean, none, []⟩
    [.field, .fragmentSpread, .inlineFragment]

/-- Leaves out a selection unless its argument is true. -/
def includeDirective : DirectiveDef :=
  directive ⟨"include", by decide⟩
    "Directs the executor to include this field or fragment only when the `if` argument is true."
    ⟨some "Included when true.", ⟨"if", by decide⟩, required boolean, none, []⟩
    [.field, .fragmentSpread, .inlineFragment]

/-- Says why an element is out of use. -/
def deprecated : DirectiveDef :=
  directive ⟨"deprecated", by decide⟩
    "Marks an element of a GraphQL schema as no longer supported."
    ⟨some ("Explains why this element was deprecated, usually also including a suggestion for how to access supported similar data. Formatted using the Markdown syntax, as specified by "
        ++ siteLink "CommonMark" "commonmark.org" ++ "."),
      ⟨"reason", by decide⟩, nullable string, some (.string "No longer supported"), []⟩
    [.fieldDefinition, .argumentDefinition, .inputFieldDefinition, .enumValue]

/-- Says where the values of a scalar are described. -/
def specifiedBy : DirectiveDef :=
  directive ⟨"specifiedBy", by decide⟩
    "Exposes a URL that specifies the behavior of this scalar."
    ⟨some "The URL that specifies the behavior of this scalar.",
      ⟨"url", by decide⟩, required string, none, []⟩
    [.scalar]

/-- The built-in directives, in their order. -/
def directives : Table DirectiveDef where
  items := [skip, includeDirective, deprecated, specifiedBy]
  nodup := by decide

end Directives

/-- The schema that holds the built-in definitions and nothing else. -/
def schema : Schema where
  definition := .empty
  directives := directives
  types := types
  introspection := introspectionNames
  introspection_sub := by
    intro n h
    rw [Table.keys, types, List.map_append]
    exact List.mem_append_left _ h

end BuiltIn
end Supergraph
