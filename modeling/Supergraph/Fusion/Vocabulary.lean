import Supergraph.Fusion.Error

/-!
# The fusion vocabulary

Composition adds seven types and thirteen directives to a schema.  Their names
are formed from fixed base names: without a prefix they are the base names, and
with a prefix `p` they are `p_base`, except that the root directive is prefixed
only on request.

A `Vocabulary` is a way to form these names.  It exists for every configuration
whose prefix is a name, and it is determined by the normal form of the
configuration (`ofConfig_normalize`).
-/

namespace Supergraph

/-- The types that composition adds. -/
inductive FusionType where
  | selection
  | selectionSet
  | typeName
  | type
  | uri
  | argumentDefinition
  | resolverKind
  deriving DecidableEq

/-- The directives that composition adds. -/
inductive FusionDirective where
  | privateMark
  | resolver
  | variableBinding
  | node
  | root
  | declare
  | is
  | remove
  | renaming
  | require
  | resolve
  | source
  | transport
  deriving DecidableEq

namespace FusionType

/-- All types, in order. -/
def all : List FusionType :=
  [.selection, .selectionSet, .typeName, .type, .uri, .argumentDefinition, .resolverKind]

/-- The name of a type without a prefix. -/
def baseName : FusionType → Name
  | .selection => ⟨"Selection", by decide⟩
  | .selectionSet => ⟨"SelectionSet", by decide⟩
  | .typeName => ⟨"TypeName", by decide⟩
  | .type => ⟨"Type", by decide⟩
  | .uri => ⟨"Uri", by decide⟩
  | .argumentDefinition => ⟨"ArgumentDefinition", by decide⟩
  | .resolverKind => ⟨"ResolverKind", by decide⟩

end FusionType

namespace FusionDirective

/-- All directives, in order. -/
def all : List FusionDirective :=
  [.privateMark, .resolver, .variableBinding, .node, .root, .declare, .is, .remove, .renaming,
    .require, .resolve, .source, .transport]

/-- The name of a directive without a prefix. -/
def baseName : FusionDirective → Name
  | .privateMark => ⟨"private", by decide⟩
  | .resolver => ⟨"resolver", by decide⟩
  | .variableBinding => ⟨"variable", by decide⟩
  | .node => ⟨"node", by decide⟩
  | .root => ⟨"fusion", by decide⟩
  | .declare => ⟨"declare", by decide⟩
  | .is => ⟨"is", by decide⟩
  | .remove => ⟨"remove", by decide⟩
  | .renaming => ⟨"rename", by decide⟩
  | .require => ⟨"require", by decide⟩
  | .resolve => ⟨"resolve", by decide⟩
  | .source => ⟨"source", by decide⟩
  | .transport => ⟨"transport", by decide⟩

end FusionDirective

/-- A way to form the names of the vocabulary. -/
structure Vocabulary where
  /-- The prefix, if any. -/
  qualifier : Option Name
  /-- The root directive has the prefix as well. -/
  qualifyRoot : Bool
  /-- Without a prefix the root directive has none. -/
  isSome_of_qualifyRoot : qualifyRoot = true → qualifier.isSome = true
  deriving DecidableEq

namespace Vocabulary

/-- The configuration that this vocabulary follows; it is in normal form. -/
def config (v : Vocabulary) : Config where
  qualifier := v.qualifier.map Name.text
  qualifyRoot := v.qualifyRoot

/-- The name with the prefix in front, if there is one. -/
def qualify (v : Vocabulary) (n : Name) : Name :=
  match v.qualifier with
  | some q => q.qualify n
  | none => n

/-- The name of a type. -/
def typeName (v : Vocabulary) (t : FusionType) : Name :=
  v.qualify t.baseName

/-- The name of a directive. -/
def directiveName (v : Vocabulary) (d : FusionDirective) : Name :=
  if d = .root ∧ v.qualifyRoot = false then d.baseName else v.qualify d.baseName

/-- The names of the types, in order. -/
def typeNames (v : Vocabulary) : List Name :=
  FusionType.all.map v.typeName

/-- The names of the directives, in order. -/
def directiveNames (v : Vocabulary) : List Name :=
  FusionDirective.all.map v.directiveName

/-- A type of the vocabulary has this text as its name. -/
def isTypeName (v : Vocabulary) (s : String) : Bool :=
  v.typeNames.any (fun n => n.text == s)

/-- A directive of the vocabulary has this text as its name. -/
def isDirectiveName (v : Vocabulary) (s : String) : Bool :=
  v.directiveNames.any (fun n => n.text == s)

/-- The vocabulary of a configuration whose prefix is a name. -/
def ofConfig (c : Config) : Except FusionError Vocabulary :=
  match c.effectiveQualifier with
  | none => .ok ⟨none, false, by simp⟩
  | some s =>
      match Name.ofString? s with
      | some q => .ok ⟨some q, c.qualifyRoot, by simp⟩
      | none => .error (.invalidQualifier s)

/-- The vocabulary depends on the normal form only. -/
theorem ofConfig_normalize
    (c : Config) :
    ofConfig c.normalize = ofConfig c := by
  unfold ofConfig
  rw [Config.effectiveQualifier_normalize]
  split
  · rfl
  · rename_i s h
    have : c.normalize.qualifyRoot = c.qualifyRoot := by
      simp [Config.normalize_eq, h]
    simp [this]

/-- The vocabulary of a configuration follows its normal form. -/
theorem config_of_ofConfig
    {c : Config}
    {v : Vocabulary}
    (h : ofConfig c = .ok v) :
    v.config = c.normalize := by
  unfold ofConfig at h
  split at h
  · rename_i hq
    cases h
    simp [config, Config.normalize_eq, hq]
  · rename_i s hq
    split at h
    · rename_i q hn
      cases h
      simp [config, Config.normalize_eq, hq, Name.text_of_ofString? hn]
    · cases h

end Vocabulary

end Supergraph
