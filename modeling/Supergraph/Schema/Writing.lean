import Supergraph.Document.Writing
import Supergraph.Schema

/-!
# From a schema to definitions

`Schema.toDefinitions` takes a schema apart again: the schema definition with its
extensions, the directive definitions, then every type with its extensions.
Built-in definitions are left out, but not the extensions of built-in types.

The extensions of a definition come in the order in which they first appear when
its directives, then its interfaces, then its other parts are gone through.  An
extension without any part does not appear.
-/

namespace Supergraph

/-- The list without repetitions; of equal elements the first stays. -/
def distinct {α : Type} [DecidableEq α] : List α → List α
  | [] => []
  | x :: xs => x :: (distinct xs).filter (fun y => y ≠ x)

namespace Origin

/-- The extensions among these origins, in the order of their first appearance. -/
def extensions (os : List Origin) : List Origin :=
  distinct (os.filter (fun o => o ≠ .definition))

end Origin

namespace TypeBody

/-- The origins of all parts, in order. -/
def origins : TypeBody → List Origin
  | .scalar => []
  | .object is fs => is.items.map Sourced.origin ++ fs.items.map Sourced.origin
  | .interface is fs => is.items.map Sourced.origin ++ fs.items.map Sourced.origin
  | .union ms => ms.items.map Sourced.origin
  | .enum vs => vs.items.map Sourced.origin
  | .inputObject fs => fs.items.map Sourced.origin

/-- The parts that come from one place. -/
def fromOrigin (o : Origin) : TypeBody → TypeContents
  | .scalar => .scalar
  | .object is fs => .object (Sourced.fromOrigin o is.items) (Sourced.fromOrigin o fs.items)
  | .interface is fs => .interface (Sourced.fromOrigin o is.items) (Sourced.fromOrigin o fs.items)
  | .union ms => .union (Sourced.fromOrigin o ms.items)
  | .enum vs => .enum (Sourced.fromOrigin o vs.items)
  | .inputObject fs => .inputObject (Sourced.fromOrigin o fs.items)

end TypeBody

namespace TypeDef

/-- The extensions of a type in the order in which they are written. -/
def extensions (t : TypeDef) : List Origin :=
  Origin.extensions (t.directives.map Sourced.origin ++ t.body.origins)

/-- What comes from one place.  Only the definition has the description. -/
def fromOrigin (o : Origin) (t : TypeDef) : TypeText where
  description := if o = .definition then t.description else none
  name := t.name
  directives := Sourced.fromOrigin o t.directives
  contents := t.body.fromOrigin o

/-- The definition, unless it is built in, and the extensions. -/
def toDefinitions (t : TypeDef) : List SystemDefinition :=
  (if t.builtIn then [] else [.type (t.fromOrigin .definition)])
    ++ t.extensions.map (fun o => .typeExtension (t.fromOrigin o))

end TypeDef

namespace SchemaDef

/-- The extensions of the schema definition in the order in which they are
written. -/
def extensions (d : SchemaDef) : List Origin :=
  Origin.extensions (d.directives.map Sourced.origin ++ d.roots.map (fun r => r.2.origin))

/-- The roots that come from one place. -/
def rootsFrom (o : Origin) (d : SchemaDef) : List (OperationKind × Name) :=
  d.roots.filterMap (fun r => if r.2.origin = o then some (r.1, r.2.item) else none)

/-- What comes from one place.  Only the definition has the description. -/
def fromOrigin (o : Origin) (d : SchemaDef) : SchemaText where
  description := if o = .definition then d.description else none
  directives := Sourced.fromOrigin o d.directives
  roots := d.rootsFrom o

/-- The definition says nothing but what the types imply. -/
def saysWhatIsImplied (types : Table TypeDef) (d : SchemaDef) : Bool :=
  d.description.isNone && d.directives.isEmpty && d.extensions.isEmpty
    && !d.roots.isEmpty
    && OperationKind.all.all
      (fun k => (d.root k).map Sourced.item == Schema.impliedRoot? types k)

/-- The definition is left out: it has no root of its own, or nothing to say. -/
def isImplicit (types : Table TypeDef) (d : SchemaDef) : Bool :=
  (d.rootsFrom .definition).isEmpty || d.saysWhatIsImplied types

/-- The definition, unless it is implicit, and the extensions. -/
def toDefinitions (types : Table TypeDef) (d : SchemaDef) : List SystemDefinition :=
  (if d.isImplicit types then [] else [.schema (d.fromOrigin .definition)])
    ++ d.extensions.map (fun o => .schemaExtension (d.fromOrigin o))

end SchemaDef

namespace Schema

/-- The definitions that a schema is written as. -/
def toDefinitions (s : Schema) : List SystemDefinition :=
  s.definition.toDefinitions s.types
    ++ (s.directives.items.filter (fun d => !d.builtIn)).map .directive
    ++ s.types.items.flatMap TypeDef.toDefinitions

/-- The text of a schema. -/
def text (s : Schema) : String :=
  SystemDefinition.listText s.toDefinitions

end Schema

end Supergraph
