import Supergraph.Fusion.Registry

/-!
# Applications of the vocabulary

While subgraphs are merged, the directives of the vocabulary are applied to the
types, fields and schema that come from them.  Each function here builds one such
application; `resolverKindOf` reads the kind of a resolver back.
-/

namespace Supergraph

/-- An argument of a lookup, with its type. -/
structure Parameter where
  name : Name
  type : TypeRef
  deriving DecidableEq

instance : Keyed Parameter where
  key p := p.name

namespace Vocabulary

/-- The mark of a private field. -/
def privateApplication (v : Vocabulary) : Directive where
  name := v.directiveName .privateMark
  arguments := []

/-- A variable that takes its value from a field. -/
def variableFromField
    (v : Vocabulary)
    (subgraphName variableName : String)
    (field : Selection) :
    Directive where
  name := v.directiveName .variableBinding
  arguments :=
    [ ⟨ArgumentName.subgraph, .string subgraphName⟩,
      ⟨ArgumentName.name, .string variableName⟩,
      ⟨ArgumentName.select, .string field.text⟩ ]

/-- A variable that takes its value from an argument. -/
def variableFromArgument
    (v : Vocabulary)
    (subgraphName variableName argumentName : String) :
    Directive where
  name := v.directiveName .variableBinding
  arguments :=
    [ ⟨ArgumentName.subgraph, .string subgraphName⟩,
      ⟨ArgumentName.name, .string variableName⟩,
      ⟨ArgumentName.argument, .string argumentName⟩ ]

/-- The description of an argument of a lookup. -/
def parameterValue (p : Parameter) : Value :=
  .object
    [ (ArgumentName.name, .string p.name.text),
      (ArgumentName.type, .string p.type.text) ]

/-- The list of the arguments of a lookup; an empty one is not written. -/
def parameterArguments (ps : Table Parameter) : List Argument :=
  if ps.items.isEmpty then []
  else [⟨ArgumentName.arguments, .list (ps.items.map parameterValue)⟩]

/-- The kind of a lookup; one at a time is not written. -/
def kindArguments (k : ResolverKind) : List Argument :=
  if k = .single then []
  else [⟨ArgumentName.kind, .enum k.enumValue⟩]

/-- A lookup of an entity: what is selected, with which arguments, and how. -/
def resolverApplication
    (v : Vocabulary)
    (subgraphName : String)
    (selections : List Selection)
    (parameters : Table Parameter)
    (kind : ResolverKind) :
    Directive where
  name := v.directiveName .resolver
  arguments :=
    [ ⟨ArgumentName.subgraph, .string subgraphName⟩,
      ⟨ArgumentName.select, .string (Selection.setText selections)⟩ ]
      ++ parameterArguments parameters ++ kindArguments kind

/-- The entities that a subgraph looks up by their id. -/
def nodeApplication (v : Vocabulary) (subgraphName : String) (typeNames : List Name) : Directive where
  name := v.directiveName .node
  arguments :=
    [ ⟨ArgumentName.subgraph, .string subgraphName⟩,
      ⟨ArgumentName.types, .list (typeNames.map (fun n => .string n.text))⟩ ]

/-- The kind of a lookup; it is one at a time if nothing is said. -/
def resolverKindOf (v : Vocabulary) (d : Directive) : Except FusionError ResolverKind :=
  if d.name = v.directiveName .resolver then
    match d.argument? ArgumentName.kind with
    | some value => ResolverKind.ofValue value
    | none => .ok .single
  else .error (.notResolver (v.directiveName .resolver) d.name)

end Vocabulary

end Supergraph
