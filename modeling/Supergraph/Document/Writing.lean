import Supergraph.Definition

/-!
# Writing definitions

Every definition of the type system as it is written.  Members stand on lines of
their own between braces, and empty braces are left out, except for those of the
schema definition.  Arguments stand on one line unless one of them has a
description or a directive.
-/

namespace Supergraph

open Layout

namespace InputValue

/-- What stands behind the name and type of an input value. -/
def defaultLayout (style : Style) : Option Value → Layout
  | none => []
  | some v => .space :: punct .equals ++ .space :: v.layout style

/-- An input value without its description. -/
def bareLayout (style : Style) (v : InputValue) : Layout :=
  Layout.name v.name ++ punct .colon ++ .space :: v.type.layout
    ++ defaultLayout style v.default ++ Directive.listLayout v.directives

/-- An input value on a line of its own. -/
def layout (level : Nat) (v : InputValue) : Layout :=
  doc level v.description ++ v.bareLayout (.broken level)

/-- The value needs a line of its own. -/
def needsLine (v : InputValue) : Bool :=
  v.description.isSome || !v.directives.isEmpty

/-- Argument definitions between parentheses; none are written as nothing. -/
def listLayout (level : Nat) : List InputValue → Layout
  | [] => []
  | vs =>
      if vs.any needsLine then
        punct .leftParen ++ itemized (level + 1) (vs.map (layout (level + 1)))
          ++ .newline level :: punct .rightParen
      else
        punct .leftParen ++ listed (vs.map (bareLayout .oneLine)) ++ punct .rightParen

end InputValue

namespace Field

/-- A field of an object or interface. -/
def layout (level : Nat) (f : Field) : Layout :=
  doc level f.description ++ Layout.name f.name
    ++ InputValue.listLayout level f.arguments
    ++ punct .colon ++ .space :: f.type.layout ++ Directive.listLayout f.directives

end Field

namespace EnumValue

/-- A value of an enum. -/
def layout (level : Nat) (v : EnumValue) : Layout :=
  doc level v.description ++ Layout.name v.name ++ Directive.listLayout v.directives

end EnumValue

/-- Members between braces, each on a line of its own. -/
def braced (ls : List Layout) : Layout :=
  .space :: punct .leftBrace ++ stacked 1 ls ++ .newline 0 :: punct .rightBrace

/-- Members between braces; none are written as nothing. -/
def bracedUnlessEmpty (ls : List Layout) : Layout :=
  if ls.isEmpty then [] else braced ls

namespace TypeContents

/-- The implemented interfaces. -/
def interfacesLayout : List Name → Layout
  | [] => []
  | ns =>
      .space :: Keyword.implements.layout ++ .space
        :: separated (.space :: punct .ampersand ++ [.space]) (ns.map Layout.name)

/-- The members of a union. -/
def membersLayout : List Name → Layout
  | [] => []
  | ns =>
      .space :: punct .equals ++ .space
        :: separated (.space :: punct .pipe ++ [.space]) (ns.map Layout.name)

/-- What stands in front of the directives of a type. -/
def headLayout : TypeContents → Layout
  | .object interfaces _ => interfacesLayout interfaces
  | .interface interfaces _ => interfacesLayout interfaces
  | _ => []

/-- What stands behind the directives of a type. -/
def bodyLayout : TypeContents → Layout
  | .scalar => []
  | .object _ fields => bracedUnlessEmpty (fields.map (Field.layout 1))
  | .interface _ fields => bracedUnlessEmpty (fields.map (Field.layout 1))
  | .union members => membersLayout members
  | .enum values => bracedUnlessEmpty (values.map (EnumValue.layout 1))
  | .inputObject fields => bracedUnlessEmpty (fields.map (InputValue.layout 1))

end TypeContents

namespace TypeText

/-- A type from its keyword on. -/
def layout (t : TypeText) : Layout :=
  t.contents.kind.keyword.layout ++ .space :: Layout.name t.name
    ++ t.contents.headLayout ++ Directive.listLayout t.directives ++ t.contents.bodyLayout

end TypeText

namespace SchemaText

/-- A root operation. -/
def rootLayout (r : OperationKind × Name) : Layout :=
  r.1.keyword.layout ++ punct .colon ++ .space :: Layout.name r.2

end SchemaText

namespace DirectiveDef

/-- A directive definition. -/
def layout (d : DirectiveDef) : Layout :=
  doc 0 d.description
    ++ Keyword.directive.layout ++ .space :: punct .atSign ++ Layout.name d.name
    ++ InputValue.listLayout 0 d.arguments
    ++ (if d.repeatable then .space :: Keyword.repeatable.layout else [])
    ++ .space :: Keyword.on.layout ++ .space
    :: separated (.space :: punct .pipe ++ [.space]) (d.locations.map Location.layout)

/-- The text of a directive definition. -/
def text (d : DirectiveDef) : String :=
  d.layout.render

end DirectiveDef

namespace SystemDefinition

/-- A definition of the type system. -/
def layout : SystemDefinition → Layout
  | .schema t =>
      doc 0 t.description ++ Keyword.schema.layout
        ++ Directive.listLayout t.directives ++ braced (t.roots.map SchemaText.rootLayout)
  | .schemaExtension t =>
      Keyword.extend.layout ++ .space :: Keyword.schema.layout
        ++ Directive.listLayout t.directives
        ++ bracedUnlessEmpty (t.roots.map SchemaText.rootLayout)
  | .type t => doc 0 t.description ++ t.layout
  | .typeExtension t => Keyword.extend.layout ++ .space :: t.layout
  | .directive d => d.layout

/-- Definitions with an empty line between any two and a line break at the end. -/
def listLayout : List SystemDefinition → Layout
  | [] => []
  | ds => separated [.newline 0, .newline 0] (ds.map layout) ++ [.newline 0]

/-- The text of a list of definitions. -/
def listText (ds : List SystemDefinition) : String :=
  (listLayout ds).render

end SystemDefinition

end Supergraph
