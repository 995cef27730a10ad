import Supergraph.Directive

/-!
# Selections

What an operation asks of a type: fields, which may be labelled, take arguments
and ask for more in turn, spreads of named fragments, and inline fragments.

A selection is written on one line.  The text of a selection set is its
selections between braces with a space between any two, and `{ }` for none.
-/

namespace Supergraph

/-- One selection.  A field without selections of its own has an empty list. -/
inductive Selection where
  | field
      (label : Option Name)
      (name : Name)
      (arguments : List Argument)
      (directives : List Directive)
      (selections : List Selection)
  | spread
      (fragment : Name)
      (directives : List Directive)
  | inline
      (condition : Option Name)
      (directives : List Directive)
      (selections : List Selection)

namespace Selection

/-- The label in front of a field. -/
def labelLayout : Option Name → Layout
  | none => []
  | some n => Layout.name n ++ Layout.punct .colon ++ [.space]

/-- The type condition of an inline fragment. -/
def conditionLayout : Option Name → Layout
  | none => []
  | some n => .space :: Keyword.on.layout ++ .space :: Layout.name n

/-- Layouts between braces on one line. -/
def braced (ls : List Layout) : Layout :=
  Layout.punct .leftBrace ++ .space :: Layout.spaced ls ++ .space :: Layout.punct .rightBrace

mutual

/-- The selection as it is written. -/
def layout : Selection → Layout
  | .field label name arguments directives selections =>
      labelLayout label ++ Layout.name name ++ Argument.listLayout arguments
        ++ Directive.listLayout directives
        ++ (match selections with
          | [] => []
          | s :: ss => .space :: braced (s.layout :: layouts ss))
  | .spread fragment directives =>
      Layout.punct .spread ++ Layout.name fragment ++ Directive.listLayout directives
  | .inline condition directives selections =>
      Layout.punct .spread ++ conditionLayout condition ++ Directive.listLayout directives
        ++ .space :: braced (layouts selections)

/-- Each selection as it is written. -/
def layouts : List Selection → List Layout
  | [] => []
  | s :: ss => s.layout :: layouts ss

end

/-- The text of a selection. -/
def text (s : Selection) : String :=
  s.layout.render

/-- The selection set as it is written. -/
def setLayout : List Selection → Layout
  | [] => Layout.punct .leftBrace ++ .space :: Layout.punct .rightBrace
  | ss => braced (layouts ss)

/-- The text of a selection set. -/
def setText (ss : List Selection) : String :=
  (setLayout ss).render

/-- Reads what stands behind the dots of a spread or inline fragment, given a reader
for the selections inside.  No comma stands behind the dots. -/
def readFragment (depth : Nat) (inner : Reader (List Selection)) : Reader Selection := do
  Reader.noComma
  match ← Reader.name? with
  | some n =>
      if n = Keyword.on.name then
        let condition ← Reader.name
        let directives ← Directive.readListWithin false depth
        let selections ← inner
        return .inline (some condition) directives selections
      else
        let directives ← Directive.readListWithin false depth
        return .spread n directives
  | none =>
      let directives ← Directive.readListWithin false depth
      let selections ← inner
      return .inline none directives selections

/-- Takes the colon that makes the name in front of it a label, and says whether it
was there.  Behind a comma it makes no label. -/
def acceptLabelColon : Reader Bool := do
  if ← Reader.atComma then return false
  Reader.acceptPunct .colon

/-- Reads a field, given a reader for its selections. -/
def readField (depth : Nat) (inner : Reader (List Selection)) : Reader Selection := do
  let first ← Reader.name
  let labelled ← acceptLabelColon
  let name ← if labelled then Reader.name else pure first
  let arguments ← Argument.readList false depth
  let directives ← Directive.readListWithin false depth
  let selections ← do
    if ← Reader.atPunct .leftBrace then inner else pure []
  return .field (if labelled then some first else none) name arguments directives selections

/-- Reads a selection set between braces in which selection sets and values stand
at most `depth` deep, this set included.  It has at least one selection. -/
def readSetWithin : Nat → Reader (List Selection)
  | 0 => failure
  | depth + 1 => do
      Reader.punct .leftBrace
      Reader.someUntil .rightBrace do
        if ← Reader.acceptPunct .spread then readFragment depth (readSetWithin depth)
        else readField depth (readSetWithin depth)

/-- Reads the selection set of an operation or fragment. -/
def readSet : Reader (List Selection) :=
  readSetWithin Reader.maxNesting

end Selection

end Supergraph
