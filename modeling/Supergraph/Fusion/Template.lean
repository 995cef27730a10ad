import Supergraph.Fusion.Registry
import Supergraph.Schema.Site

/-!
# Directive templates

A template is a directive definition whose arguments refer to types by
placeholders.  Instantiating it gives the definition another name and puts a
registered type in the place of every placeholder; lists and non-null marks stay
as they are, and so does everything else.
-/

namespace Supergraph

/-- Which name is registered for a placeholder. -/
structure Placeholders where
  entries : List (Name × Name)
  deriving DecidableEq

/-- The templates that composition asks for. -/
inductive TemplateName where
  | declare
  | is
  | remove
  | renaming
  | require
  | resolve
  deriving DecidableEq

/-- What is handed over when a template is asked for, to define a directive by it.
Anything but a directive definition is refused when it comes to its turn.  A
template that several directives are defined by is asked for each time, and need
not be the same again. -/
abbrev Templates := TemplateName → FusionDirective → Member

namespace Placeholders

/-- The registered name. -/
def lookup? (p : Placeholders) (n : Name) : Option Name :=
  (p.entries.find? (fun e => e.1 == n)).map Prod.snd

/-- The argument with a registered type in the place of the placeholder. -/
def instantiateArgument
    (p : Placeholders)
    (directive : Name)
    (a : InputValue) :
    Except FusionError InputValue :=
  match a.type.mapInnermost? p.lookup? with
  | some t => .ok { a with type := t }
  | none => .error (.unboundPlaceholder directive a.type.innermost)

/-- Every argument instantiated, up to the first that cannot be. -/
def instantiateArguments
    (p : Placeholders)
    (directive : Name) :
    List InputValue → Except FusionError (List InputValue)
  | [] => .ok []
  | a :: as =>
      match p.instantiateArgument directive a with
      | .error e => .error e
      | .ok a' =>
          match p.instantiateArguments directive as with
          | .error e => .error e
          | .ok as' => .ok (a' :: as')

/-- The template under a new name and with registered types. -/
def instantiate (p : Placeholders) (template : Member) (n : Name) : Except FusionError DirectiveDef :=
  match template with
  | .type t => .error (.notDirective t.kind t.name)
  | .directive d =>
      match p.instantiateArguments n d.arguments with
      | .error e => .error e
      | .ok as => .ok { d with name := n, arguments := as }

end Placeholders

namespace Vocabulary

/-- The scalars of the language that templates may refer to. -/
def builtInScalars : List Name :=
  [BuiltIn.boolean, BuiltIn.int, BuiltIn.string]

/-- The placeholders of a vocabulary: three scalars of the language for
themselves, and the base name of every type for its name. -/
def placeholders (v : Vocabulary) : Placeholders where
  entries :=
    builtInScalars.map (fun n => (n, n))
      ++ FusionType.all.map (fun t => (t.baseName, v.typeName t))

end Vocabulary

namespace TemplateName

/-- All templates, in order. -/
def all : List TemplateName :=
  [.declare, .is, .remove, .renaming, .require, .resolve]

/-- The text that a template goes by. -/
def text : TemplateName → String
  | .declare => "declare"
  | .is => "is"
  | .remove => "remove"
  | .renaming => "rename"
  | .require => "require"
  | .resolve => "resolve"

/-- The template that goes by this text. -/
def ofText? (s : String) : Option TemplateName :=
  all.find? (fun t => t.text == s)

end TemplateName

namespace FusionDirective

/-- The directives defined by a template, each with its template, in order. -/
def templated : List (TemplateName × FusionDirective) :=
  [ (.declare, .declare),
    (.is, .is),
    (.remove, .remove),
    (.renaming, .renaming),
    (.require, .require),
    (.resolve, .resolve),
    (.resolve, .source),
    (.resolve, .transport) ]

end FusionDirective

namespace Templates

section BuiltInTemplates

/-- A placeholder for a type of the vocabulary. -/
def placeholder (t : FusionType) (nonNull : Bool) : TypeRef :=
  .named t.baseName nonNull

/-- The directive definition of a built-in template. -/
def builtInDef : TemplateName → DirectiveDef
  | .declare =>
      .plain FusionDirective.declare.baseName
        [ .plain FusionDirective.variableBinding.baseName (placeholder .typeName true),
          .plain ArgumentName.select (placeholder .selection true),
          .plain ⟨"from", by decide⟩ (placeholder .typeName false) ]
        true [.fieldDefinition]
  | .is =>
      .plain FusionDirective.is.baseName
        [ .plain ⟨"field", by decide⟩ (placeholder .selection false),
          .plain ⟨"coordinate", by decide⟩ (.named BuiltIn.string false) ]
        false [.argumentDefinition]
  | .remove =>
      .plain FusionDirective.remove.baseName
        [ .plain ⟨"coordinate", by decide⟩ (.named BuiltIn.string true) ]
        true [.schema]
  | .renaming =>
      .plain FusionDirective.renaming.baseName
        [ .plain ⟨"coordinate", by decide⟩ (.named BuiltIn.string true),
          .plain ⟨"newName", by decide⟩ (placeholder .typeName true) ]
        true [.schema]
  | .require =>
      .plain FusionDirective.require.baseName
        [ .plain ⟨"field", by decide⟩ (placeholder .selection true) ]
        false [.argumentDefinition]
  | .resolve =>
      .plain FusionDirective.resolve.baseName
        [ .plain ArgumentName.select (placeholder .selectionSet false),
          .plain ⟨"from", by decide⟩ (placeholder .typeName false) ]
        false [.fieldDefinition]

/-- The templates that composition has if no others are given. -/
def builtIn : Templates := fun t _ =>
  .directive (builtInDef t)

end BuiltInTemplates

/-- The templates with another one in the place of `n`. -/
def set (ts : Templates) (n : TemplateName) (m : Member) : Templates := fun t d =>
  if t = n then m else ts t d

end Templates

end Supergraph
