import Supergraph.Fusion.Target

/-!
# Recovery

A schema that was composed, written and read again carries the root directive
with the configuration that it was composed with.  `Target.ofSchema` finds that
application and marks whatever the schema has of the vocabulary.

An application counts if it has a `version` and if its name is the one that its
own `prefix` and `prefixSelf` lead to.  The first one that counts is taken.
-/

namespace Supergraph

namespace Vocabulary

/-- The prefix that an application records: a string, or none at all. -/
def recordedQualifier? (d : Directive) : Option (Option String) :=
  match d.argument? ArgumentName.qualifier with
  | none => some none
  | some .null => some none
  | some (.string s) => some (some s)
  | some _ => none

/-- Whether an application records that the root directive is prefixed. -/
def recordedQualifyRoot (d : Directive) : Bool :=
  d.argument? ArgumentName.qualifyRoot == some (.boolean true)

/-- The vocabulary that an application of the root directive records. -/
def ofApplication? (d : Directive) : Option Vocabulary :=
  match d.argument? ArgumentName.version, recordedQualifier? d with
  | some _, some q =>
      match ofConfig (Config.of q (recordedQualifyRoot d)) with
      | .ok v => if d.name = v.directiveName .root then some v else none
      | .error _ => none
  | _, _ => none

/-- The vocabulary that the first application in a list records. -/
def ofApplications? (ds : List Directive) : Option Vocabulary :=
  ds.findSome? ofApplication?

end Vocabulary

namespace Target

/-- Records a composition with this vocabulary and marks what there is of it. -/
def recover (f : Target) (v : Vocabulary) : Target :=
  let f := (v.typeNames.filter f.schema.types.contains).foldl markType f
  let f := (v.directiveNames.filter f.schema.directives.contains).foldl markDirective f
  { f with config := some v.config }

/-- A schema with the record of an earlier composition, if it carries one. -/
def ofSchema (s : Schema) : Target :=
  match Vocabulary.ofApplications? s.definition.applications with
  | some v => (unmarked s).recover v
  | none => unmarked s

end Target

end Supergraph
