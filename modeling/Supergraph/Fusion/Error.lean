import Supergraph.Definition
import Supergraph.Fusion.Config

/-!
# Errors

Every way in which composition can fail, with what it has to say.  `code` sorts
the errors into five groups and `message` puts them into words.
-/

namespace Supergraph

/-- The groups of errors. -/
inductive ErrorCode where
  | internal
  | invalidArgument
  | configurationConflict
  | notSupported
  | invalidGraphql
  deriving DecidableEq

namespace ErrorCode

/-- All groups, each once. -/
def all : List ErrorCode :=
  [.internal, .invalidArgument, .configurationConflict, .notSupported, .invalidGraphql]

/-- The code of a group. -/
def text : ErrorCode → String
  | .internal => "INTERNAL"
  | .invalidArgument => "INVALID_ARGUMENT"
  | .configurationConflict => "CONFIGURATION_CONFLICT"
  | .notSupported => "NOT_SUPPORTED"
  | .invalidGraphql => "INVALID_GRAPHQL"

/-- What the errors of a group have in common. -/
def description : ErrorCode → String
  | .internal =>
      "An internal consistency check failed, for instance a directive template references a fusion type that was not registered."
  | .invalidArgument =>
      "An input to composition is invalid, for instance a prefix that is not a valid GraphQL name."
  | .configurationConflict =>
      "The schema was already composed with a different naming configuration, or defines a member whose name is taken by the fusion vocabulary."
  | .notSupported =>
      "The requested operation is not supported for the given schema member or value."
  | .invalidGraphql =>
      "The composed schema is not valid GraphQL."

/-- The group with this code. -/
def ofText? (s : String) : Option ErrorCode :=
  all.find? (fun c => c.text == s)

end ErrorCode

/-- Why composition failed. -/
inductive FusionError where
  /-- A consistency check failed. -/
  | internal (details : String)
  /-- A name was asked for and the text is none. -/
  | invalidName (text : String)
  /-- The prefix is no name. -/
  | invalidQualifier (text : String)
  /-- The schema was composed with another configuration before. -/
  | configConflict (recorded requested : Config)
  /-- The schema has definitions of its own under names of the vocabulary. -/
  | nameCollision (types directives : List Name)
  /-- A type that has to be a scalar is none. -/
  | notScalar (name : Name) (kind : TypeKind)
  /-- A template refers to a type that no placeholder stands for. -/
  | unboundPlaceholder (directive type : Name)
  /-- A template is a type. -/
  | notDirective (kind : TypeKind) (name : Name)
  /-- An application of another directive was given. -/
  | notResolver (expected found : Name)
  /-- No resolver kind has this text. -/
  | unknownResolverKind (text : String)
  /-- A resolver kind is given by a value of another form. -/
  | resolverKindValue (value : Value)
  /-- The composed schema is not valid. -/
  | invalidGraphql
  deriving DecidableEq

namespace FusionError

/-- The group of an error. -/
def code : FusionError → ErrorCode
  | .internal _ => .internal
  | .invalidName _ => .invalidArgument
  | .invalidQualifier _ => .invalidArgument
  | .configConflict _ _ => .configurationConflict
  | .nameCollision _ _ => .configurationConflict
  | .notScalar _ _ => .internal
  | .unboundPlaceholder _ _ => .internal
  | .notDirective _ _ => .notSupported
  | .notResolver _ _ => .notSupported
  | .unknownResolverKind _ => .notSupported
  | .resolverKindValue _ => .notSupported
  | .invalidGraphql => .invalidGraphql

/-- The wording of an internal error. -/
def internalMessage (details : String) : String :=
  "An internal error has occurred, please report this bug to the composition maintainers.\n\nDetails: "
    ++ details

/-- A text in double quotes, as it stands. -/
def inQuotes (s : String) : String :=
  "\"" ++ s ++ "\""

/-- The members that collide, in words. -/
def collisionList (types directives : List Name) : String :=
  String.intercalate ", "
    (types.map (fun n => "type " ++ inQuotes n.text)
      ++ directives.map (fun n => "directive " ++ inQuotes ("@" ++ n.text)))

/-- The wording of an error. -/
def message : FusionError → String
  | .internal details => internalMessage details
  | .invalidName s => "Invalid GraphQL name " ++ inQuotes s
  | .invalidQualifier s =>
      "Invalid fusion prefix " ++ inQuotes s ++ ": the prefix must be a valid GraphQL name"
  | .configConflict recorded requested =>
      "Schema was already composed with " ++ recorded.describe
        ++ ", cannot compose it again with " ++ requested.describe
  | .nameCollision types directives =>
      "Schema defines " ++ collisionList types directives
        ++ " which collide with fusion names, compose with a prefix to avoid the collision"
  | .notScalar n kind =>
      internalMessage
        ("Expected " ++ inQuotes n.text ++ " to be a scalar type but it is " ++ kind.text)
  | .unboundPlaceholder d t =>
      internalMessage
        ("Directive template " ++ inQuotes ("@" ++ d.text) ++ " references type "
          ++ inQuotes t.text ++ " which is not registered in this composition")
  | .notDirective kind n =>
      "Cannot rewrite " ++ kind.text ++ " " ++ inQuotes n.text
        ++ ": only directive definitions can be rewritten"
  | .notResolver expected found =>
      "Expected a @" ++ expected.text ++ " directive, found @" ++ found.text
  | .unknownResolverKind s => "Unsupported resolver kind " ++ inQuotes s
  | .resolverKindValue v => "Resolver kind must be an enum value, found `" ++ v.text ++ "`"
  | .invalidGraphql => ErrorCode.invalidGraphql.description

end FusionError

namespace Name

/-- The name with this text; any other text is an error. -/
def ofString (s : String) : Except FusionError Name :=
  match ofString? s with
  | some n => .ok n
  | none => .error (.invalidName s)

end Name

end Supergraph
