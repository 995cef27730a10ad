import Supergraph.Fusion.ResolverKind
import Supergraph.Schema.BuiltIn

/-!
# The definitions of the vocabulary

What composition adds to a schema under the names of a vocabulary: the types,
the five directives with a definition of their own, and the application of the
root directive that records the configuration.
-/

namespace Supergraph

namespace ArgumentName

/-- What a lookup selects. -/
def select : Name := ⟨"select", by decide⟩

/-- The subgraph that an application speaks of. -/
def subgraph : Name := ⟨"subgraph", by decide⟩

/-- The arguments of a lookup. -/
def arguments : Name := ⟨"arguments", by decide⟩

/-- The kind of a lookup. -/
def kind : Name := BuiltIn.kindField

/-- The name of a variable or of an argument. -/
def name : Name := BuiltIn.nameField

/-- The argument that a variable takes its value from. -/
def argument : Name := ⟨"argument", by decide⟩

/-- The entities of a subgraph. -/
def types : Name := BuiltIn.typesField

/-- The type of an argument. -/
def type : Name := BuiltIn.typeField

/-- The prefix that a schema was composed with. -/
def qualifier : Name := ⟨"prefix", by decide⟩

/-- Whether the root directive is prefixed. -/
def qualifyRoot : Name := ⟨"prefixSelf", by decide⟩

/-- The version of the format. -/
def version : Name := ⟨"version", by decide⟩

end ArgumentName

namespace InputValue

/-- An argument or input field with nothing but a name and a type. -/
def plain (n : Name) (t : TypeRef) : InputValue where
  description := none
  name := n
  type := t
  default := none
  directives := []

end InputValue

namespace DirectiveDef

/-- A directive with nothing but arguments and locations. -/
def plain
    (n : Name)
    (arguments : List InputValue)
    (repeatable : Bool)
    (locations : List Location) :
    DirectiveDef where
  description := none
  name := n
  arguments := arguments
  repeatable := repeatable
  locations := locations
  builtIn := false

end DirectiveDef

namespace Vocabulary

section Types

/-- A reference to a type of the vocabulary, null allowed. -/
def nullable (v : Vocabulary) (t : FusionType) : TypeRef :=
  .named (v.typeName t) false

/-- A reference to a type of the vocabulary. -/
def required (v : Vocabulary) (t : FusionType) : TypeRef :=
  .named (v.typeName t) true

/-- The input object that describes an argument of a resolver. -/
def argumentDefinition (v : Vocabulary) : TypeDef where
  description := none
  name := v.typeName .argumentDefinition
  builtIn := false
  directives := []
  body := .inputObject
    { items :=
        [ ⟨.definition, .plain ArgumentName.name (v.required .typeName)⟩,
          ⟨.definition, .plain ArgumentName.type (v.required .type)⟩ ]
      nodup := by
        show List.Nodup [ArgumentName.name, ArgumentName.type]
        decide }

/-- The enum of the resolver kinds. -/
def resolverKind (v : Vocabulary) : TypeDef where
  description := none
  name := v.typeName .resolverKind
  builtIn := false
  directives := []
  body := .enum
    { items := ResolverKind.all.map (fun k => ⟨.definition, ⟨none, k.enumValue, []⟩⟩)
      nodup := by decide }

/-- The definition of a type of the vocabulary. -/
def typeDef (v : Vocabulary) : FusionType → TypeDef
  | .argumentDefinition => v.argumentDefinition
  | .resolverKind => v.resolverKind
  | t => .plainScalar (v.typeName t)

end Types

section Directives

/-- Marks a field that subgraphs keep to themselves. -/
def privateDef (v : Vocabulary) : DirectiveDef :=
  .plain (v.directiveName .privateMark) [] false [.fieldDefinition]

/-- Says how a subgraph looks up an entity. -/
def resolverDef (v : Vocabulary) : DirectiveDef :=
  .plain (v.directiveName .resolver)
    [ .plain ArgumentName.select (v.required .selectionSet),
      .plain ArgumentName.subgraph (v.required .typeName),
      .plain ArgumentName.arguments (.list (v.required .argumentDefinition) false),
      .plain ArgumentName.kind (v.nullable .resolverKind) ]
    false [.object]

/-- Says where a variable of a lookup takes its value from. -/
def variableDef (v : Vocabulary) : DirectiveDef :=
  .plain (v.directiveName .variableBinding)
    [ .plain ArgumentName.name (v.required .typeName),
      .plain ArgumentName.select (v.nullable .selection),
      .plain ArgumentName.argument (v.nullable .typeName),
      .plain ArgumentName.subgraph (v.required .typeName) ]
    false [.object, .fieldDefinition]

/-- Lists the entities that a subgraph looks up by their id. -/
def nodeDef (v : Vocabulary) : DirectiveDef :=
  .plain (v.directiveName .node)
    [ .plain ArgumentName.subgraph (v.required .typeName),
      .plain ArgumentName.types (.list (v.required .typeName) true) ]
    false [.schema]

/-- Records the configuration on the schema. -/
def rootDef (v : Vocabulary) : DirectiveDef :=
  .plain (v.directiveName .root)
    [ .plain ArgumentName.qualifier (v.nullable .typeName),
      .plain ArgumentName.qualifyRoot (.named BuiltIn.boolean false),
      .plain ArgumentName.version (.named BuiltIn.int false) ]
    false [.schema]

/-- The directives with a definition of their own, in order. -/
def ownDirectives (v : Vocabulary) : List DirectiveDef :=
  [v.privateDef, v.resolverDef, v.variableDef, v.nodeDef, v.rootDef]

/-- The version of the format that the root directive records. -/
def formatVersion : IntLiteral :=
  ⟨"1", by decide⟩

/-- The application of the root directive that records the configuration. -/
def rootApplication (v : Vocabulary) : Directive where
  name := v.directiveName .root
  arguments :=
    (match v.qualifier with
      | none => []
      | some q =>
          [ ⟨ArgumentName.qualifier, .string q.text⟩,
            ⟨ArgumentName.qualifyRoot, .boolean v.qualifyRoot⟩ ])
      ++ [⟨ArgumentName.version, .int formatVersion⟩]

end Directives

end Vocabulary

end Supergraph
