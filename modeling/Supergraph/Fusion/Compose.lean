import Supergraph.Fusion.Target
import Supergraph.Fusion.Template

/-!
# Composition

`Target.compose` registers a vocabulary on a schema.  It is refused before
anything changes if the schema was composed with another configuration or has
definitions of its own under names of the vocabulary.  Then it sees to the
scalars of the language, puts in the types, the five directives with a definition
of their own, and the directives that templates define.

A step may fail: a name of a scalar may be taken by another type, and a template
may be unusable.  What was done before stays done; only the configuration is
recorded at the very end.
-/

namespace Supergraph

/-- What a composition has registered: the vocabulary, and the placeholders to
instantiate further templates with. -/
structure Registration where
  vocabulary : Vocabulary
  placeholders : Placeholders
  deriving DecidableEq

namespace Target

section Refusal

/-- The names of types of the vocabulary under which the schema has a type of its
own. -/
def collidingTypes (f : Target) (v : Vocabulary) : List Name :=
  v.typeNames.filter (fun n => f.schema.types.contains n && !f.isMarkedType n)

/-- The names of directives of the vocabulary under which the schema has a
directive of its own. -/
def collidingDirectives (f : Target) (v : Vocabulary) : List Name :=
  v.directiveNames.filter (fun n => f.schema.directives.contains n && !f.isMarkedDirective n)

/-- The names of the vocabulary are taken. -/
def collision? (f : Target) (v : Vocabulary) : Option FusionError :=
  let types := f.collidingTypes v
  let directives := f.collidingDirectives v
  if types.isEmpty && directives.isEmpty then none
  else some (.nameCollision types directives)

/-- Why this vocabulary is refused before anything changes. -/
def refusal? (f : Target) (v : Vocabulary) : Option FusionError :=
  match f.config with
  | some c => if c = v.config then f.collision? v else some (.configConflict c v.config)
  | none => f.collision? v

end Refusal

section Steps

/-- Puts a plain scalar into the schema, without a mark. -/
def addScalar (f : Target) (n : Name) : Target :=
  { f with schema := f.schema.withTypes (f.schema.types.put (.plainScalar n)) }

/-- Sees to it that there are scalars of these names, up to the first name that
is taken by a type of another kind. -/
def ensureScalars : Target → List Name → Target × Option FusionError
  | f, [] => (f, none)
  | f, n :: ns =>
      match f.schema.type? n with
      | some t =>
          if t.kind = .scalar then ensureScalars f ns
          else (f, some (.notScalar n t.kind))
      | none => ensureScalars (f.addScalar n) ns

/-- Puts in the types of a vocabulary. -/
def insertTypes (f : Target) (v : Vocabulary) : Target :=
  (FusionType.all.map v.typeDef).foldl insertType f

/-- Puts in the directives with a definition of their own and applies the root
directive to the schema. -/
def insertOwnDirectives (f : Target) (v : Vocabulary) : Target :=
  (v.ownDirectives.foldl insertDirective f).replaceApplication v.rootApplication

/-- Puts in directives that templates define, up to the first template that cannot
be used. -/
def insertTemplated
    (v : Vocabulary)
    (templates : Templates) :
    Target → List (TemplateName × FusionDirective) → Target × Option FusionError
  | f, [] => (f, none)
  | f, (t, d) :: rest =>
      match v.placeholders.instantiate (templates t d) (v.directiveName d) with
      | .error e => (f, some e)
      | .ok definition => insertTemplated v templates (f.insertDirective definition) rest

end Steps

/-- Registers a vocabulary on a schema. -/
def compose
    (f : Target)
    (v : Vocabulary)
    (templates : Templates) :
    Target × Except FusionError Registration :=
  match f.refusal? v with
  | some e => (f, .error e)
  | none =>
      match f.ensureScalars Vocabulary.builtInScalars with
      | (f, some e) => (f, .error e)
      | (f, none) =>
          let f := (f.insertTypes v).insertOwnDirectives v
          match insertTemplated v templates f FusionDirective.templated with
          | (f, some e) => (f, .error e)
          | (f, none) =>
              ({ f with config := some v.config },
                .ok { vocabulary := v, placeholders := v.placeholders })

end Target

end Supergraph
