import Supergraph.Table
import Supergraph.Value

/-!
# Directive applications

A directive is applied to an element of a schema or of an operation by its name,
with arguments in the order in which they were written.  Nothing forbids that an
argument is given twice; the first one counts.
-/

namespace Supergraph

/-- An argument of a directive or of a field. -/
structure Argument where
  name : Name
  value : Value
  deriving DecidableEq

/-- An application of a directive. -/
structure Directive where
  name : Name
  arguments : List Argument
  deriving DecidableEq

instance : Keyed Argument where
  key a := a.name

namespace Argument

/-- The argument as it is written, always on one line. -/
def layout (a : Argument) : Layout :=
  Layout.name a.name ++ Layout.punct .colon ++ .space :: a.value.layout .oneLine

/-- Arguments between parentheses; none are written as nothing. -/
def listLayout : List Argument → Layout
  | [] => []
  | as => Layout.punct .leftParen ++ Layout.listed (as.map layout) ++ Layout.punct .rightParen

/-- Reads an argument whose value nests at most `depth` levels.  A name without a
colon gives no argument. -/
def read (constant : Bool) (depth : Nat) : Reader (Option Argument) := do
  let n ← Reader.name
  if ← Reader.acceptPunct .colon then
    let v ← Value.readWithin constant depth
    return some ⟨n, v⟩
  return none

/-- Reads the arguments between parentheses, if there are any. -/
def readList (constant : Bool) (depth : Nat) : Reader (List Argument) := do
  let as ← Reader.optionalGroup .leftParen .rightParen (read constant depth)
  return Reader.found as

end Argument

namespace Directive

/-- The value of the first argument of this name. -/
def argument? (d : Directive) (k : Name) : Option Value :=
  (lookup k d.arguments).map Argument.value

/-- The application as it is written. -/
def layout (d : Directive) : Layout :=
  Layout.punct .atSign ++ Layout.name d.name ++ Argument.listLayout d.arguments

/-- Applications in a row, each behind a space. -/
def listLayout (ds : List Directive) : Layout :=
  ds.flatMap (fun d => .space :: d.layout)

/-- The text of the application. -/
def text (d : Directive) : String :=
  d.layout.render

/-- Reads an application whose values nest at most `depth` levels. -/
def readWithin (constant : Bool) (depth : Nat) : Reader Directive := do
  Reader.punct .atSign
  let n ← Reader.name
  let as ← Argument.readList constant depth
  return ⟨n, as⟩

/-- Reads as many applications as there are, with values that nest at most `depth`
levels. -/
def readListWithin (constant : Bool) (depth : Nat) : Reader (List Directive) :=
  Reader.manyWhile .atSign (readWithin constant depth)

/-- Reads as many applications as there are, outside of any selection. -/
def readList (constant : Bool) : Reader (List Directive) :=
  readListWithin constant Reader.maxNesting

end Directive

end Supergraph
