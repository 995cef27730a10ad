import Supergraph.Definition
import Supergraph.Token.Scan

/-!
# Reading documents

A document is one definition after another.  Each begins with a keyword, except
that a definition of the schema, a type or a directive may have a description in
front and that a query may be a bare selection set.  Empty parentheses and braces
are refused, and an extension has to add something.

A comma may stand between any two tokens, but not between a description or the
word `extend` and the word that follows.
-/

namespace Supergraph

namespace InputValue

/-- Reads an argument or input field. -/
def read : Reader InputValue := do
  let description ← Reader.string?
  let name ← Reader.name
  Reader.punct .colon
  let type ← TypeRef.read
  let default ← do
    if ← Reader.acceptPunct .equals then some <$> Value.read true else pure none
  let directives ← Directive.readList true
  return { description, name, type, default, directives }

/-- Reads argument definitions between parentheses, if there are any. -/
def readList : Reader (List InputValue) :=
  Reader.optionalGroup .leftParen .rightParen read

end InputValue

namespace Field

/-- Reads a field of an object or interface. -/
def read : Reader Field := do
  let description ← Reader.string?
  let name ← Reader.name
  let arguments ← InputValue.readList
  Reader.punct .colon
  let type ← TypeRef.read
  let directives ← Directive.readList true
  return { description, name, arguments, type, directives }

end Field

namespace EnumValue

/-- The words for booleans and null are no enum values. -/
def isReservedWord (n : Name) : Bool :=
  match Keyword.ofName? n with
  | some .trueWord => true
  | some .falseWord => true
  | some .nullWord => true
  | _ => false

/-- Reads a value of an enum. -/
def read : Reader EnumValue := do
  let description ← Reader.string?
  let name ← Reader.name
  if isReservedWord name then failure
  let directives ← Directive.readList true
  return { description, name, directives }

end EnumValue

namespace TypeContents

/-- Reads the implemented interfaces, if there are any. -/
def readInterfaces : Reader (List Name) := do
  if ← Keyword.implements.accept then Reader.someBetween .ampersand Reader.name
  else return []

/-- Reads the members of a union, if there are any. -/
def readMembers : Reader (List Name) := do
  if ← Reader.acceptPunct .equals then Reader.someBetween .pipe Reader.name
  else return []

/-- Reads what stands between braces, if there is anything. -/
def readBraced {α : Type} (p : Reader α) : Reader (List α) :=
  Reader.optionalGroup .leftBrace .rightBrace p

end TypeContents

namespace TypeText

/-- Reads a type from behind its keyword.  Implemented interfaces stand in front
of the directives and all other contents behind them. -/
def read (kind : TypeKind) (description : Option String) : Reader TypeText := do
  let name ← Reader.name
  match kind with
  | .scalar =>
      let directives ← Directive.readList true
      return { description, name, directives, contents := .scalar }
  | .object =>
      let interfaces ← TypeContents.readInterfaces
      let directives ← Directive.readList true
      let fields ← TypeContents.readBraced Field.read
      return { description, name, directives, contents := .object interfaces fields }
  | .interface =>
      let interfaces ← TypeContents.readInterfaces
      let directives ← Directive.readList true
      let fields ← TypeContents.readBraced Field.read
      return { description, name, directives, contents := .interface interfaces fields }
  | .union =>
      let directives ← Directive.readList true
      let members ← TypeContents.readMembers
      return { description, name, directives, contents := .union members }
  | .enum =>
      let directives ← Directive.readList true
      let values ← TypeContents.readBraced EnumValue.read
      return { description, name, directives, contents := .enum values }
  | .inputObject =>
      let directives ← Directive.readList true
      let fields ← TypeContents.readBraced InputValue.read
      return { description, name, directives, contents := .inputObject fields }

/-- Nothing is added by an extension of this form. -/
def addsNothing (t : TypeText) : Bool :=
  t.directives.isEmpty && t.contents.isEmpty

end TypeText

namespace TypeKind

/-- The kind of type that a word begins the definition of. -/
def ofKeyword? : Keyword → Option TypeKind
  | .scalar => some .scalar
  | .type => some .object
  | .interface => some .interface
  | .union => some .union
  | .enum => some .enum
  | .input => some .inputObject
  | _ => none

end TypeKind

namespace SchemaText

/-- Reads a root operation.  Without a type behind the colon there is none. -/
def readRoot : Reader (Option (OperationKind × Name)) := do
  match OperationKind.ofName? (← Reader.name) with
  | some k =>
      Reader.punct .colon
      let n ← Reader.name?
      return n.map (fun n => (k, n))
  | none => failure

/-- Reads a schema definition from behind its keyword; it may do without braces. -/
def read (description : Option String) : Reader SchemaText := do
  let directives ← Directive.readList true
  let roots ← Reader.optionalGroup .leftBrace .rightBrace readRoot
  return { description, directives, roots := Reader.found roots }

/-- Reads an extension of the schema from behind its keyword.  Behind directives the
braces may be empty. -/
def readExtension : Reader SchemaText := do
  let directives ← Directive.readList true
  let roots ← do
    if ← Reader.acceptPunct .leftBrace then Reader.manyUntil .rightBrace readRoot else pure []
  if directives.isEmpty && roots.isEmpty then failure
  return { description := none, directives, roots := Reader.found roots }

end SchemaText

namespace DirectiveDef

/-- Reads a directive definition from behind its keyword. -/
def read (description : Option String) : Reader DirectiveDef := do
  Reader.punct .atSign
  let name ← Reader.name
  let arguments ← InputValue.readList
  let repeatable ← Keyword.repeatable.accept
  Keyword.on.read
  let locations ← Reader.someBetween .pipe Location.read
  return { description, name, arguments, repeatable, locations, builtIn := false }

end DirectiveDef

namespace VariableDef

/-- Reads a variable of an operation. -/
def read : Reader VariableDef := do
  Reader.punct .dollar
  let name ← Reader.name
  Reader.punct .colon
  let type ← TypeRef.read
  let default ← do
    if ← Reader.acceptPunct .equals then some <$> Value.read true else pure none
  let directives ← Directive.readList true
  return { name, type, default, directives }

end VariableDef

namespace SystemDefinition

/-- Reads an extension from behind the word that begins it. -/
def readExtension : Reader SystemDefinition := do
  Reader.noComma
  match Keyword.ofName? (← Reader.name) with
  | some .schema => return .schemaExtension (← SchemaText.readExtension)
  | some k =>
      match TypeKind.ofKeyword? k with
      | some kind =>
          let t ← TypeText.read kind none
          if t.addsNothing then failure
          return .typeExtension t
      | none => failure
  | none => failure

/-- Reads a definition that may have a description. -/
def readDescribed (k : Keyword) (description : Option String) : Reader SystemDefinition := do
  match k with
  | .schema => return .schema (← SchemaText.read description)
  | .directive => return .directive (← DirectiveDef.read description)
  | k =>
      match TypeKind.ofKeyword? k with
      | some kind => return .type (← TypeText.read kind description)
      | none => failure

end SystemDefinition

namespace Definition

/-- Reads an operation from behind its keyword. -/
def readOperation (kind : OperationKind) : Reader Definition := do
  let name ← Reader.name?
  let inputs ← Reader.optionalGroup .leftParen .rightParen VariableDef.read
  let directives ← Directive.readList false
  let selections ← Selection.readSet
  return .operation kind name inputs directives selections

/-- Reads a fragment from behind its name. -/
def readFragment (name : Name) : Reader Definition := do
  if name = Keyword.on.name then failure
  Keyword.on.read
  let condition ← Reader.name
  let directives ← Directive.readList false
  let selections ← Selection.readSet
  return .fragment name condition directives selections

/-- Reads a definition that has no description in front. -/
def readBare (k : Keyword) : Reader Definition := do
  match k with
  | .extend => return .system (← SystemDefinition.readExtension)
  | .query => readOperation .query
  | .mutation => readOperation .mutation
  | .subscription => readOperation .subscription
  | .fragment => readFragment (← Reader.name)
  | k => return .system (← SystemDefinition.readDescribed k none)

/-- Reads a definition from behind its description.  In front of a fragment the
description takes the place of the keyword, so that the word is its name. -/
def readBehind (description : String) : Reader Definition := do
  Reader.noComma
  match Keyword.ofName? (← Reader.name) with
  | some .fragment => readFragment Keyword.fragment.name
  | some k => return .system (← SystemDefinition.readDescribed k (some description))
  | none => failure

/-- Reads a definition. -/
def read : Reader Definition := do
  if ← Reader.atPunct .leftBrace then
    let selections ← Selection.readSet
    return .operation .query none [] [] selections
  match ← Reader.string? with
  | some s => readBehind s
  | none =>
      match Keyword.ofName? (← Reader.name) with
      | some k => readBare k
      | none => failure

end Definition

namespace Document

/-- Reads definitions up to the end of the tokens, at most `fuel` of them. -/
def readWithin : Nat → Reader Document
  | 0 => failure
  | fuel + 1 => do
      match ← Reader.peek with
      | none => return []
      | some _ =>
          let d ← Definition.read
          let ds ← readWithin fuel
          return d :: ds

/-- Reads a document: at least one definition, up to the end of the tokens. -/
def read : Reader Document := fun ls =>
  (do
    let d ← Definition.read
    let ds ← readWithin (ls.length + 1)
    return d :: ds : Reader Document) ls

/-- The document with this text. -/
def parse? (s : String) : Option Document :=
  (Lexeme.scan s).bind (Reader.all? read)

end Document

end Supergraph
