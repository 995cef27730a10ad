import Supergraph.Fusion.Application
import Supergraph.Fusion.Compose
import Supergraph.Fusion.Elision
import Supergraph.Fusion.Recovery
import Supergraph.Schema.Assembly
import Supergraph.Schema.Writing
import Supergraph.Validity

/-!
# Sessions

A session works on one schema step by step: it reads a schema, composes it,
builds and attaches applications, looks at what there is, and writes it out
again.  It holds the target of composition and what the latest successful
composition has registered; the latter is forgotten when the schema is replaced.

A step that fails says why, and the session goes on from what was done so far.
-/

namespace Supergraph

/-- Why a step failed. -/
inductive Failure where
  | fusion (e : FusionError)
  | invalidSdl
  | invalidSelection
  | invalidType
  | notComposed
  | noSuchMember
  | noMember
  deriving DecidableEq

/-- How an application is to be built. -/
inductive DirectiveSource where
  | text (sdl : String)
  | privateMark
  | variableFromField (subgraphName variableName select : String)
  | variableFromArgument (subgraphName variableName argumentName : String)
  | resolver
      (subgraphName select : String)
      (parameters : List (String × String))
      (kind : Option String)
  | node (subgraphName : String) (typeNames : List String)
  deriving DecidableEq

/-- Where a template to be instantiated comes from. -/
inductive TemplateSource where
  | builtIn (name : TemplateName)
  | text (sdl : String)
  deriving DecidableEq

/-- A step of a session. -/
inductive Step where
  | parse (sdl : String)
  | compose (config : Config) (templates : List (String × String))
  | state
  | print
  | elide (keep : Bool)
  | reparse
  | rewrap
  | validate (keep : Bool)
  | lookup (types directives : List String)
  | make (source : DirectiveSource)
  | attach (path : List String) (source : DirectiveSource)
  | kindOf (source : DirectiveSource)
  | instantiate (source : TemplateSource) (name : String)
  | showDirective (name : String)
  | put (sdl : String) (newName : Option String)
  | dropType (name : String)
  | dropDirective (name : String)
  deriving DecidableEq

/-- What a step has to say. -/
inductive Reply where
  | state (f : Target)
  | registered (r : Registration)
  | text (sdl : String)
  | valid
  | flags (bs : List Bool)
  | application (d : Directive)
  | kind (k : ResolverKind)
  | instantiated (template : Name) (d : DirectiveDef)
  | definition (d : DirectiveDef)
  | done
  | found (b : Bool)

/-- A schema that is worked on. -/
structure Session where
  target : Target
  registration : Option Registration

section Reading

/-- The document with this text, in which something is looked for. -/
def wrappedDocument? (before text after : String) : Option Document :=
  Document.parse? (before ++ text ++ after)

/-- The selections of the first definition, if it is an operation. -/
def firstSelections? : Document → Option (List Selection)
  | .operation _ _ _ _ selections :: _ => some selections
  | _ => none

/-- The first selection of this text, which has to be a field. -/
def fieldOfText (s : String) : Except Failure Selection :=
  match (wrappedDocument? "\x7b " s " \x7d").bind firstSelections? with
  | some (.field label name arguments directives selections :: _) =>
      .ok (.field label name arguments directives selections)
  | _ => .error .invalidSelection

/-- The selections that a lookup asks for; an empty text asks for none. -/
def selectionsOfText (s : String) : Except Failure (List Selection) :=
  if s = "" then .ok []
  else
    match (Document.parse? s).bind firstSelections? with
    | some selections => .ok selections
    | none => .error .invalidSelection

/-- The first application in this text. -/
def applicationOfText (s : String) : Except Failure Directive :=
  match (wrappedDocument? "\x7b f " s " \x7d").bind firstSelections? with
  | some (.field _ _ _ (d :: _) _ :: _) => .ok d
  | _ => .error .invalidSelection

/-- The value with this text. -/
def valueOfText (s : String) : Except Failure Value :=
  match (wrappedDocument? "\x7b f(v: " s ") \x7d").bind firstSelections? with
  | some (.field _ _ (a :: _) _ _ :: _) => .ok a.value
  | _ => .error .invalidSelection

/-- The type reference with this text, which has to leave it at one definition. -/
def typeOfText (s : String) : Except Failure TypeRef :=
  match wrappedDocument? "directive @d(v: " s ") on FIELD" with
  | some [.system (.directive d)] =>
      match d.arguments with
      | a :: _ => .ok a.type
      | [] => .error .invalidType
  | _ => .error .invalidType

/-- The name with this text. -/
def nameOfText (s : String) : Except Failure Name :=
  match Name.ofString s with
  | .ok n => .ok n
  | .error e => .error (.fusion e)

/-- The schema with this text. -/
def schemaOfText (s : String) : Except Failure Schema :=
  match Schema.parse s with
  | .ok s => .ok s
  | .error _ => .error .invalidSdl

/-- The first member that the schema with this text defines. -/
def memberOfText (s : String) : Except Failure Member := do
  match (← schemaOfText s).firstMember? with
  | some m => return m
  | none => throw .noMember

/-- The templates, with those of this list in the place of the built-in ones. -/
def templatesOfText : List (String × String) → Except Failure Templates
  | [] => .ok Templates.builtIn
  | (k, s) :: rest => do
      let m ← memberOfText s
      let ts ← templatesOfText rest
      match TemplateName.ofText? k with
      | some n => return ts.set n m
      | none => return ts

/-- The parameters of a lookup.  A name that comes again keeps its place and
takes the later type. -/
def parametersOfText :
    Table Parameter → List (String × String) → Except Failure (Table Parameter)
  | ps, [] => .ok ps
  | ps, (n, t) :: rest => do
      let type ← typeOfText t
      let name ← nameOfText n
      parametersOfText (ps.put ⟨name, type⟩) rest

/-- An outcome of composition as the outcome of a step. -/
def ofFusion {α : Type} : Except FusionError α → Except Failure α
  | .ok x => .ok x
  | .error e => .error (.fusion e)

/-- The kind with this text; one lookup at a time if nothing is said. -/
def kindOfText : Option String → Except Failure ResolverKind
  | none => .ok .single
  | some s => ofFusion (ResolverKind.ofText s)

/-- The element that a path leads to. -/
def siteOfPath? : List String → Option Site
  | ["schema"] => some .schema
  | ["type", t] => do
      return .type (← Name.ofString? t)
  | ["field", t, f] => do
      return .field (← Name.ofString? t) (← Name.ofString? f)
  | ["argument", t, f, a] => do
      return .argument (← Name.ofString? t) (← Name.ofString? f) (← Name.ofString? a)
  | ["directiveArgument", d, a] => do
      return .directiveArgument (← Name.ofString? d) (← Name.ofString? a)
  | _ => none

end Reading

namespace Session

/-- A session on a schema, of which nothing is registered yet. -/
def ofSchema (s : Schema) : Session where
  target := .ofSchema s
  registration := none

/-- A session on the schema that holds the built-in definitions only. -/
def fresh : Session :=
  ofSchema BuiltIn.schema

/-- The vocabulary that was registered last. -/
def vocabulary (s : Session) : Except Failure Vocabulary :=
  match s.registration with
  | some r => .ok r.vocabulary
  | none => .error .notComposed

/-- The names of object types of the schema. -/
def objectNames (s : Session) : List String → Except Failure (List Name)
  | [] => .ok []
  | t :: ts =>
      match Name.ofString? t with
      | some n => do
          if s.target.schema.isObject n then return n :: (← s.objectNames ts)
          else throw .noSuchMember
      | none => .error .noSuchMember

/-- Builds an application. -/
def build (s : Session) (source : DirectiveSource) : Except Failure Directive :=
  match source with
  | .text sdl => applicationOfText sdl
  | .privateMark => do
      return (← s.vocabulary).privateApplication
  | .variableFromField subgraphName variableName select => do
      let v ← s.vocabulary
      return v.variableFromField subgraphName variableName (← fieldOfText select)
  | .variableFromArgument subgraphName variableName argumentName => do
      return (← s.vocabulary).variableFromArgument subgraphName variableName argumentName
  | .resolver subgraphName select parameters kind => do
      let v ← s.vocabulary
      let parameters ← parametersOfText .empty parameters
      let selections ← selectionsOfText select
      let kind ← kindOfText kind
      return v.resolverApplication subgraphName selections parameters kind
  | .node subgraphName typeNames => do
      let v ← s.vocabulary
      return v.nodeApplication subgraphName (← s.objectNames typeNames)

/-- Which of these names are marked. -/
def marks (f : Target) (types directives : List String) : Except Failure (List Bool) := do
  let types ← types.mapM nameOfText
  let directives ← directives.mapM nameOfText
  return types.map f.isMarkedType ++ directives.map f.isMarkedDirective

/-- The same session with another schema. -/
def withSchema (s : Session) (schema : Schema) : Session :=
  { s with target := { s.target with schema := schema } }

/-- Composes the schema; what was done before a failure stays. -/
def compose
    (s : Session)
    (config : Config)
    (templates : List (String × String)) :
    Session × Except Failure Registration :=
  match templatesOfText templates with
  | .error e => (s, .error e)
  | .ok templates =>
      match Vocabulary.ofConfig config with
      | .error e => (s, .error (.fusion e))
      | .ok v =>
          match s.target.compose v templates with
          | (f, .ok r) => ({ target := f, registration := some r }, .ok r)
          | (f, .error e) => ({ s with target := f }, .error (.fusion e))

/-- Attaches an application to an element. -/
def attach (s : Session) (path : List String) (source : DirectiveSource) : Except Failure Session := do
  let d ← s.build source
  match (siteOfPath? path).bind (s.target.schema.attach? d) with
  | some schema => return s.withSchema schema
  | none => throw .noSuchMember

/-- Instantiates a template with what was registered last. -/
def instantiate
    (s : Session)
    (source : TemplateSource)
    (name : String) :
    Except Failure (Name × DirectiveDef) := do
  let m ← match source with
    | .builtIn t => pure (.directive (Templates.builtInDef t))
    | .text sdl => memberOfText sdl
  let n ← nameOfText name
  match s.registration with
  | none => throw .notComposed
  | some r =>
      let d ← ofFusion (r.placeholders.instantiate m n)
      return (m.name, d)

/-- Puts a member into the schema. -/
def put (s : Session) (sdl : String) (newName : Option String) : Except Failure Session := do
  match ← memberOfText sdl, newName with
  | .type t, some n =>
      let n ← nameOfText n
      return s.withSchema (s.target.schema.put (.type { t with name := n }))
  | m, _ => return s.withSchema (s.target.schema.put m)

/-- Takes a type out of the schema and says whether there was one. -/
def dropType (s : Session) (name : String) : Session × Bool :=
  let schema := s.target.schema
  match Name.ofString? name with
  | some n => (s.withSchema (schema.dropType n), schema.types.contains n)
  | none => (s, false)

/-- Takes a directive definition out of the schema and says whether there was
one. -/
def dropDirective (s : Session) (name : String) : Session × Bool :=
  let schema := s.target.schema
  match Name.ofString? name with
  | some n => (s.withSchema (schema.dropDirective n), schema.directives.contains n)
  | none => (s, false)

/-- The state of the target as a reply. -/
def stateReply (s : Session) : Session × Except Failure Reply :=
  (s, .ok (.state s.target))

/-- Goes on with a new schema, if there is one, and replies with its state. -/
def restart (s : Session) : Except Failure Schema → Session × Except Failure Reply
  | .ok schema => (ofSchema schema).stateReply
  | .error e => (s, .error e)

/-- An answer that leaves the session as it is. -/
def answer {α : Type} (s : Session) (reply : α → Reply) :
    Except Failure α → Session × Except Failure Reply
  | .ok x => (s, .ok (reply x))
  | .error e => (s, .error e)

/-- A change of the session. -/
def change (s : Session) : Except Failure Session → Session × Except Failure Reply
  | .ok s' => (s', .ok .done)
  | .error e => (s, .error e)

/-- Takes a step. -/
def step (s : Session) : Step → Session × Except Failure Reply
  | .parse sdl => s.restart (schemaOfText sdl)
  | .compose config templates =>
      match s.compose config templates with
      | (s, .ok r) => (s, .ok (.registered r))
      | (s, .error e) => (s, .error e)
  | .state => s.stateReply
  | .print => (s, .ok (.text s.target.schema.text))
  | .elide keep =>
      let schema := s.target.elide
      (if keep then ofSchema schema else s, .ok (.text schema.text))
  | .reparse => s.restart (schemaOfText s.target.schema.text)
  | .rewrap => s.restart (.ok s.target.schema)
  | .validate keep =>
      match s.target.schema.validated? with
      | some schema => (if keep then ofSchema schema else s, .ok .valid)
      | none => (s, .error (.fusion .invalidGraphql))
  | .lookup types directives => s.answer .flags (marks s.target types directives)
  | .make source => s.answer .application (s.build source)
  | .attach path source => s.change (s.attach path source)
  | .kindOf source =>
      s.answer .kind do
        let d ← s.build source
        let v ← s.vocabulary
        ofFusion (v.resolverKindOf d)
  | .instantiate source name =>
      s.answer (fun p => .instantiated p.1 p.2) (s.instantiate source name)
  | .showDirective name =>
      match (Name.ofString? name).bind s.target.schema.directive? with
      | some d => (s, .ok (.definition d))
      | none => (s, .error .noSuchMember)
  | .put sdl newName => s.change (s.put sdl newName)
  | .dropType name =>
      let (s, b) := s.dropType name
      (s, .ok (.found b))
  | .dropDirective name =>
      let (s, b) := s.dropDirective name
      (s, .ok (.found b))

end Session

end Supergraph
