import Supergraph.Document.Reading
import Supergraph.Schema.BuiltIn

/-!
# From definitions to a schema

`Schema.ofDefinitions` puts the definitions of a document together with the
built-in ones.  A type takes in its extensions in the order in which they stand in
the document, those in front of its definition included.  An extension of another
kind of type is passed over in front of the definition and an error behind it.
Without a schema definition, object types with the default names are the
roots, and extensions of the schema then extend that.

What refers to what is not looked at, only that no name is defined twice and that
there is something for every extension to extend.
-/

namespace Supergraph

/-- Why a text is no schema. -/
inductive SdlError where
  | malformed
  | executable
  | typeDefinedTwice
  | directiveDefinedTwice (n : Name)
  | schemaDefinedTwice
  | memberDefinedTwice (type : Name)
  | rootDefinedTwice (kind : OperationKind)
  | nothingToExtend (type : Name)
  | extendsOtherKind (type : Name)
  | noSchemaToExtend
  deriving DecidableEq

namespace Table

variable {α : Type} [Keyed α]

/-- Appends values, unless a name would occur twice. -/
def append? (t : Table α) (xs : List α) : Option (Table α) :=
  ofList? (t.items ++ xs)

end Table

namespace TypeBody

/-- Adds contents from one place; they have to be of the same kind and bring no
name that is already there. -/
def add (o : Origin) : TypeBody → TypeContents → Option TypeBody
  | .scalar, .scalar => some .scalar
  | .object is fs, .object is' fs' => do
      return .object (← is.append? (Sourced.allFrom o is')) (← fs.append? (Sourced.allFrom o fs'))
  | .interface is fs, .interface is' fs' => do
      return .interface (← is.append? (Sourced.allFrom o is')) (← fs.append? (Sourced.allFrom o fs'))
  | .union ms, .union ms' => do
      return .union (← ms.append? (Sourced.allFrom o ms'))
  | .enum vs, .enum vs' => do
      return .enum (← vs.append? (Sourced.allFrom o vs'))
  | .inputObject fs, .inputObject fs' => do
      return .inputObject (← fs.append? (Sourced.allFrom o fs'))
  | _, _ => none

end TypeBody

namespace TypeDef

/-- Adds what was written in one place. -/
def add (o : Origin) (t : TypeDef) (text : TypeText) : Except SdlError TypeDef :=
  if t.kind = text.contents.kind then
    match t.body.add o text.contents with
    | some body =>
        .ok { t with
          directives := t.directives ++ Sourced.allFrom o text.directives
          body := body }
    | none => .error (.memberDefinedTwice t.name)
  else .error (.extendsOtherKind t.name)

/-- The type of a definition, without its extensions. -/
def ofText (text : TypeText) : Except SdlError TypeDef :=
  add .definition
    { description := text.description
      name := text.name
      builtIn := false
      directives := []
      body := .ofKind text.contents.kind }
    text

/-- Adds the extensions one after the other, numbered from `index` on. -/
def extendAll (index : Nat) (t : TypeDef) : List TypeText → Except SdlError TypeDef
  | [] => .ok t
  | e :: es => do
      let t ← t.add (.extension index) e
      t.extendAll (index + 1) es

end TypeDef

namespace SchemaDef

/-- Declares roots one after the other; none may be declared twice. -/
def addRoots (o : Origin) : SchemaDef → List (OperationKind × Name) → Except SdlError SchemaDef
  | d, [] => .ok d
  | d, (k, n) :: rs =>
      match d.root k with
      | some _ => .error (.rootDefinedTwice k)
      | none => addRoots o (d.withRoot k ⟨o, n⟩) rs

/-- Adds what was written in one place. -/
def add (o : Origin) (d : SchemaDef) (text : SchemaText) : Except SdlError SchemaDef :=
  addRoots o { d with directives := d.directives ++ Sourced.allFrom o text.directives } text.roots

/-- Adds the extensions one after the other, numbered from `index` on. -/
def extendAll (index : Nat) (d : SchemaDef) : List SchemaText → Except SdlError SchemaDef
  | [] => .ok d
  | e :: es => do
      let d ← d.add (.extension index) e
      d.extendAll (index + 1) es

/-- The schema definition that the types imply. -/
def implied (types : Table TypeDef) : SchemaDef :=
  let root := fun k => (Schema.impliedRoot? types k).map (fun n => ⟨.definition, n⟩)
  { empty with
    query := root .query
    mutation := root .mutation
    subscription := root .subscription }

end SchemaDef

namespace SystemDefinition

/-- The type definitions. -/
def types (ds : List SystemDefinition) : List TypeText :=
  ds.filterMap fun
    | .type t => some t
    | _ => none

/-- The extensions of types. -/
def typeExtensions (ds : List SystemDefinition) : List TypeText :=
  ds.filterMap fun
    | .typeExtension t => some t
    | _ => none

/-- The extensions of the type of this name. -/
def extensionsOf (n : Name) (ds : List SystemDefinition) : List TypeText :=
  (typeExtensions ds).filter (fun e => e.name == n)

/-- The extensions that the type with this definition takes in: of those in front
of the definition the ones of its kind, and all of those behind it. -/
def extensionsAround (t : TypeText) (ds : List SystemDefinition) : List TypeText :=
  let inFront := ds.takeWhile (fun d => d ≠ .type t)
  let behind := ds.dropWhile (fun d => d ≠ .type t)
  (extensionsOf t.name inFront).filter (fun e => e.contents.kind = t.contents.kind)
    ++ extensionsOf t.name behind

/-- The directive definitions. -/
def directives (ds : List SystemDefinition) : List DirectiveDef :=
  ds.filterMap fun
    | .directive d => some d
    | _ => none

/-- The schema definitions. -/
def schemas (ds : List SystemDefinition) : List SchemaText :=
  ds.filterMap fun
    | .schema t => some t
    | _ => none

/-- The extensions of the schema. -/
def schemaExtensions (ds : List SystemDefinition) : List SchemaText :=
  ds.filterMap fun
    | .schemaExtension t => some t
    | _ => none

end SystemDefinition

namespace Schema

/-- Adds directive definitions.  A built-in one may be redefined once, in its
place; any other name may be defined only once. -/
def addDirectives : Table DirectiveDef → List DirectiveDef → Except SdlError (Table DirectiveDef)
  | t, [] => .ok t
  | t, d :: ds =>
      match t.get? d.name with
      | some old =>
          if old.builtIn then addDirectives (t.put d) ds
          else .error (.directiveDefinedTwice d.name)
      | none => addDirectives (t.put d) ds

/-- A type of the document with its extensions. -/
def assembleType (ds : List SystemDefinition) (t : TypeText) : Except SdlError TypeDef := do
  (← TypeDef.ofText t).extendAll 0 (SystemDefinition.extensionsAround t ds)

/-- The types of the document behind the built-in ones, each with its
extensions. -/
def assembleTypes (ds : List SystemDefinition) : Except SdlError (Table TypeDef) := do
  let builtIn ← BuiltIn.types.items.mapM fun t =>
    t.extendAll 0 (SystemDefinition.extensionsOf t.name ds)
  let declared ← (SystemDefinition.types ds).mapM (assembleType ds)
  let all := builtIn ++ declared
  match (SystemDefinition.typeExtensions ds).find? (fun e => !all.any (fun t => t.name == e.name)) with
  | some e => throw (.nothingToExtend e.name)
  | none => pure ()
  match Table.ofList? all with
  | some types => return types
  | none => throw .typeDefinedTwice

/-- The schema definition of the document, or the one that its types imply. -/
def assembleDefinition
    (types : Table TypeDef)
    (ds : List SystemDefinition) :
    Except SdlError SchemaDef := do
  let extensions := SystemDefinition.schemaExtensions ds
  match SystemDefinition.schemas ds with
  | [] =>
      let d := SchemaDef.implied types
      if d.roots.isEmpty && !extensions.isEmpty then throw .noSchemaToExtend
      d.extendAll 0 extensions
  | [text] =>
      let d ← SchemaDef.add .definition { SchemaDef.empty with description := text.description } text
      d.extendAll 0 extensions
  | _ => throw .schemaDefinedTwice

/-- The schema that these definitions make up together with the built-in ones. -/
def ofDefinitions (ds : List SystemDefinition) : Except SdlError Schema := do
  let directives ← addDirectives BuiltIn.directives (SystemDefinition.directives ds)
  let types ← assembleTypes ds
  let definition ← assembleDefinition types ds
  return { BuiltIn.schema.withTypes types with definition, directives }

end Schema

namespace Document

/-- The definitions of a document that has nothing to be executed. -/
def systemDefinitions? : Document → Option (List SystemDefinition)
  | [] => some []
  | .system d :: ds => (systemDefinitions? ds).map (d :: ·)
  | _ :: _ => none

end Document

namespace Schema

/-- The schema with this text. -/
def parse (sdl : String) : Except SdlError Schema := do
  match Document.parse? sdl with
  | none => throw .malformed
  | some doc =>
      match doc.systemDefinitions? with
      | none => throw .executable
      | some ds => ofDefinitions ds

end Schema

end Supergraph
