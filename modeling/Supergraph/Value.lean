import Supergraph.Token.Keyword

/-!
# Values

The values that arguments and defaults are given.  Numbers keep their source
text, and an object keeps its fields in the order in which they were written.
Variables occur in operations only; the constant values of a schema have none.
-/

namespace Supergraph

/-- A value as it is written. -/
inductive Value where
  | null
  | boolean (b : Bool)
  | int (literal : IntLiteral)
  | float (literal : FloatLiteral)
  | string (s : String)
  | enum (n : Name)
  | var (n : Name)
  | list (items : List Value)
  | object (fields : List (Name × Value))

namespace Value

mutual

/-- Two values are compared constructor by constructor. -/
def decideEq : (a b : Value) → Decidable (a = b)
  | .null, b => by
      cases b
      case null => exact isTrue rfl
      all_goals exact isFalse (by simp)
  | .boolean x, b => by
      cases b
      case boolean y => exact decidable_of_iff (x = y) (by simp)
      all_goals exact isFalse (by simp)
  | .int x, b => by
      cases b
      case int y => exact decidable_of_iff (x = y) (by simp)
      all_goals exact isFalse (by simp)
  | .float x, b => by
      cases b
      case float y => exact decidable_of_iff (x = y) (by simp)
      all_goals exact isFalse (by simp)
  | .string x, b => by
      cases b
      case string y => exact decidable_of_iff (x = y) (by simp)
      all_goals exact isFalse (by simp)
  | .enum x, b => by
      cases b
      case enum y => exact decidable_of_iff (x = y) (by simp)
      all_goals exact isFalse (by simp)
  | .var x, b => by
      cases b
      case var y => exact decidable_of_iff (x = y) (by simp)
      all_goals exact isFalse (by simp)
  | .list xs, b => by
      cases b
      case list ys =>
        have := decideEqList xs ys
        exact decidable_of_iff (xs = ys) (by simp)
      all_goals exact isFalse (by simp)
  | .object xs, b => by
      cases b
      case object ys =>
        have := decideEqFields xs ys
        exact decidable_of_iff (xs = ys) (by simp)
      all_goals exact isFalse (by simp)

/-- Two lists of values are compared item by item. -/
def decideEqList : (xs ys : List Value) → Decidable (xs = ys)
  | [], [] => isTrue rfl
  | [], _ :: _ => isFalse (by simp)
  | _ :: _, [] => isFalse (by simp)
  | x :: xs, y :: ys =>
      have := decideEq x y
      have := decideEqList xs ys
      decidable_of_iff (x = y ∧ xs = ys) (by simp)

/-- Two lists of fields are compared field by field. -/
def decideEqFields : (xs ys : List (Name × Value)) → Decidable (xs = ys)
  | [], [] => isTrue rfl
  | [], _ :: _ => isFalse (by simp)
  | _ :: _, [] => isFalse (by simp)
  | (n, x) :: xs, (m, y) :: ys =>
      have := decideEq x y
      have := decideEqFields xs ys
      decidable_of_iff (n = m ∧ x = y ∧ xs = ys) (by simp [and_assoc])

end

instance : DecidableEq Value := decideEq

/-- The value is `null`. -/
def isNull : Value → Bool
  | .null => true
  | _ => false

section Writing

open Layout

mutual

/-- The value as it is written. -/
def layout (style : Style) : Value → Layout
  | .null => Keyword.nullWord.layout
  | .boolean true => Keyword.trueWord.layout
  | .boolean false => Keyword.falseWord.layout
  | .int l => [.token (.int l)]
  | .float l => [.token (.float l)]
  | .string s => Layout.string style s
  | .enum n => Layout.name n
  | .var n => Layout.punct .dollar ++ Layout.name n
  | .list items => bracketed style .leftBracket .rightBracket (itemLayouts style.inner items)
  | .object fields => bracketed style .leftBrace .rightBrace (fieldLayouts style.inner fields)

/-- The items of a list as they are written. -/
def itemLayouts (style : Style) : List Value → List Layout
  | [] => []
  | v :: vs => v.layout style :: itemLayouts style vs

/-- The fields of an object as they are written. -/
def fieldLayouts (style : Style) : List (Name × Value) → List Layout
  | [] => []
  | (n, v) :: fs =>
      (Layout.name n ++ Layout.punct .colon ++ .space :: v.layout style) :: fieldLayouts style fs

end

end Writing

/-- The text of a value with line breaks, at the left margin. -/
def text (v : Value) : String :=
  (v.layout (.broken 0)).render

/-- The value of a name: a boolean, null or the value of an enum. -/
def ofName (n : Name) : Value :=
  match Keyword.ofName? n with
  | some .trueWord => .boolean true
  | some .falseWord => .boolean false
  | some .nullWord => .null
  | _ => .enum n

/-- Reads a field of an object, given a reader for its value.  A name without a
colon gives no field. -/
def readField (inner : Reader Value) : Reader (Option (Name × Value)) := do
  let n ← Reader.name
  if ← Reader.acceptPunct .colon then
    let v ← inner
    return some (n, v)
  return none

/-- Reads a value, given a reader for what stands inside of it: the items of a list
and the values of an object's fields.  Variables are refused where the value has to
be constant. -/
def readWith (constant : Bool) (inner : Reader Value) : Reader Value := do
  match ← Reader.next with
  | .name n => return ofName n
  | .int l => return .int l
  | .float l => return .float l
  | .string s => return .string s
  | .punct .dollar =>
      if constant then failure
      else
        let n ← Reader.name
        return .var n
  | .punct .leftBracket =>
      let items ← Reader.manyUntil .rightBracket inner
      return .list items
  | .punct .leftBrace =>
      let fields ← Reader.manyUntil .rightBrace (readField inner)
      return .object (Reader.found fields)
  | .punct _ => failure

/-- Reads a value inside of which values stand at most `depth` deep. -/
def readWithin (constant : Bool) : Nat → Reader Value
  | 0 => readWith constant failure
  | depth + 1 => readWith constant (readWithin constant depth)

/-- Reads a value that is not inside of anything else. -/
def read (constant : Bool) : Reader Value :=
  readWithin constant Reader.maxNesting

end Value

end Supergraph
