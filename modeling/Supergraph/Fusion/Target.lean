import Supergraph.Fusion.Registry

/-!
# Targets of composition

A `Target` is a schema together with what composition has done to it: the
configuration that it was composed with, and *marks* on the types and directives
that composition put in.  Marks are names, in the order in which they were set.

Whatever composition inserts it marks at the same moment, so that the mark is
there even if a later step fails.
-/

namespace Supergraph

/-- A schema with the record of its composition. -/
structure Target where
  schema : Schema
  config : Option Config
  markedTypes : Table Name
  markedDirectives : Table Name
  deriving DecidableEq

namespace Target

/-- A schema that nothing is known about. -/
def unmarked (s : Schema) : Target where
  schema := s
  config := none
  markedTypes := .empty
  markedDirectives := .empty

/-- Composition put in the type of this name. -/
def isMarkedType (f : Target) (n : Name) : Bool :=
  f.markedTypes.contains n

/-- Composition put in the directive of this name. -/
def isMarkedDirective (f : Target) (n : Name) : Bool :=
  f.markedDirectives.contains n

/-- Puts a type into the schema and marks it. -/
def insertType (f : Target) (t : TypeDef) : Target :=
  { f with
    schema := f.schema.withTypes (f.schema.types.put t)
    markedTypes := f.markedTypes.put t.name }

/-- Puts a directive definition into the schema and marks it. -/
def insertDirective (f : Target) (d : DirectiveDef) : Target :=
  { f with
    schema := { f.schema with directives := f.schema.directives.put d }
    markedDirectives := f.markedDirectives.put d.name }

/-- Applies a directive to the schema, in the place of all its applications. -/
def replaceApplication (f : Target) (d : Directive) : Target :=
  let definition := f.schema.definition
  { f with
    schema := { f.schema with
      definition := { definition with
        directives :=
          definition.directives.filter (fun a => a.item.name != d.name)
            ++ [⟨.definition, d⟩] } } }

/-- Marks a type that is already in the schema. -/
def markType (f : Target) (n : Name) : Target :=
  { f with markedTypes := f.markedTypes.put n }

/-- Marks a directive that is already in the schema. -/
def markDirective (f : Target) (n : Name) : Target :=
  { f with markedDirectives := f.markedDirectives.put n }

end Target

end Supergraph
