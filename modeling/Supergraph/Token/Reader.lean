import Supergraph.Token

/-!
# Reading tokens

A `Reader` takes what it needs from the front of a list of tokens and leaves the
rest, or refuses.  Commas count only where a reader asks for them.  The
repetitions at the end of the module are bounded by the number of tokens that are
left when they begin, since every round takes at least one.
-/

namespace Supergraph

/-- Reads a value from the front of the tokens. -/
abbrev Reader (α : Type) := StateT (List Lexeme) Option α

namespace Reader

variable {α : Type}

/-- Lists, objects and selection sets may stand inside each other so many times. -/
def maxNesting : Nat := 500

/-- Looks at the next token and leaves it. -/
def peek : Reader (Option Token) := fun ls =>
  some (ls.head?.map Lexeme.token, ls)

/-- A comma stands in front of the next token. -/
def atComma : Reader Bool := fun ls =>
  some (ls.head?.any Lexeme.afterComma, ls)

/-- Refuses a comma in front of the next token. -/
def noComma : Reader Unit := do
  if ← atComma then failure

/-- Takes the next token. -/
def next : Reader Token
  | [] => none
  | l :: ls => some (l.token, ls)

/-- Takes the next token if it is this one, and says whether it was. -/
def accept (t : Token) : Reader Bool
  | [] => some (false, [])
  | l :: ls => if l.token = t then some (true, ls) else some (false, l :: ls)

/-- Takes this token or refuses. -/
def expect (t : Token) : Reader Unit := do
  if ← accept t then return ()
  failure

/-- Takes a punctuator or refuses. -/
def punct (p : Punctuator) : Reader Unit :=
  expect (.punct p)

/-- Takes a punctuator if it is next, and says whether it was. -/
def acceptPunct (p : Punctuator) : Reader Bool :=
  accept (.punct p)

/-- Takes a name. -/
def name : Reader Name
  | ⟨.name n, _⟩ :: ls => some (n, ls)
  | _ => none

/-- Takes a name if one is next. -/
def name? : Reader (Option Name)
  | ⟨.name n, _⟩ :: ls => some (some n, ls)
  | ls => some (none, ls)

/-- Takes a string if one is next. -/
def string? : Reader (Option String)
  | ⟨.string s, _⟩ :: ls => some (some s, ls)
  | ls => some (none, ls)

/-- The next token is this punctuator. -/
def atPunct (p : Punctuator) : Reader Bool := do
  return (← peek) == some (.punct p)

/-- Repeats `p` up to the closing punctuator, at most `fuel` times. -/
def untilWithin (close : Punctuator) (p : Reader α) : Nat → Reader (List α)
  | 0 => failure
  | fuel + 1 => do
      if ← acceptPunct close then return []
      let x ← p
      let xs ← untilWithin close p fuel
      return x :: xs

/-- Repeats `p` as long as the next token is `start`, at most `fuel` times. -/
def whileWithin (start : Punctuator) (p : Reader α) : Nat → Reader (List α)
  | 0 => failure
  | fuel + 1 => do
      if ← atPunct start then
        let x ← p
        let xs ← whileWithin start p fuel
        return x :: xs
      return []

/-- Repeats `p` behind each separator, at most `fuel` times. -/
def behindWithin (sep : Punctuator) (p : Reader α) : Nat → Reader (List α)
  | 0 => failure
  | fuel + 1 => do
      if ← acceptPunct sep then
        let x ← p
        let xs ← behindWithin sep p fuel
        return x :: xs
      return []

/-- Any number of `p` up to the closing punctuator, which is taken. -/
def manyUntil (close : Punctuator) (p : Reader α) : Reader (List α) := fun ls =>
  untilWithin close p (ls.length + 1) ls

/-- At least one `p` up to the closing punctuator, which is taken. -/
def someUntil (close : Punctuator) (p : Reader α) : Reader (List α) := do
  let x ← p
  let xs ← manyUntil close p
  return x :: xs

/-- Any number of `p`, each beginning with `start`. -/
def manyWhile (start : Punctuator) (p : Reader α) : Reader (List α) := fun ls =>
  whileWithin start p (ls.length + 1) ls

/-- At least one `p`, separated by `sep`, which may also stand in front. -/
def someBetween (sep : Punctuator) (p : Reader α) : Reader (List α) := do
  let _ ← acceptPunct sep
  let x ← p
  let xs ← fun ls => behindWithin sep p (ls.length + 1) ls
  return x :: xs

/-- At least one `p` between brackets if the opening one is next, else none. -/
def optionalGroup (opening close : Punctuator) (p : Reader α) : Reader (List α) := do
  if ← acceptPunct opening then someUntil close p
  else return []

/-- What was found, without the places where something is missing. -/
def found (xs : List (Option α)) : List α :=
  xs.filterMap id

/-- Reads all of the tokens. -/
def all? (p : Reader α) (ls : List Lexeme) : Option α :=
  match p ls with
  | some (x, []) => some x
  | _ => none

end Reader

end Supergraph
