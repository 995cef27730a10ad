import Supergraph.Name

/-!
# Number literals

Integer and float literals keep their source text.  Their spelling is a finite
automaton: `Number.step` follows one character, and a literal is a text that the
automaton accepts, in one of the two integer states or in one of the two float
states.

`scan` consumes as many characters as the automaton can follow; what it consumed
leads from the state it began in to the state it reports (`run_scan`).
-/

namespace Supergraph
namespace Number

/-- How far the spelling of a number has come. -/
inductive State where
  | start
  | sign
  | zero
  | whole
  | point
  | fraction
  | exponent
  | exponentSign
  | exponentDigits
  deriving DecidableEq

/-- Follows one character, if the spelling can go on with it. -/
def step : State → Char → Option State
  | .start, c =>
      if c = '-' then some .sign
      else if c = '0' then some .zero
      else if c.isDigit then some .whole
      else none
  | .sign, c =>
      if c = '0' then some .zero
      else if c.isDigit then some .whole
      else none
  | .zero, c =>
      if c = '.' then some .point
      else if c = 'e' ∨ c = 'E' then some .exponent
      else none
  | .whole, c =>
      if c.isDigit then some .whole
      else if c = '.' then some .point
      else if c = 'e' ∨ c = 'E' then some .exponent
      else none
  | .point, c =>
      if c.isDigit then some .fraction
      else none
  | .fraction, c =>
      if c.isDigit then some .fraction
      else if c = 'e' ∨ c = 'E' then some .exponent
      else none
  | .exponent, c =>
      if c.isDigit then some .exponentDigits
      else if c = '+' ∨ c = '-' then some .exponentSign
      else none
  | .exponentSign, c =>
      if c.isDigit then some .exponentDigits
      else none
  | .exponentDigits, c =>
      if c.isDigit then some .exponentDigits
      else none

/-- Follows all of the characters. -/
def run : State → List Char → Option State
  | s, [] => some s
  | s, c :: cs =>
      match step s c with
      | some s' => run s' cs
      | none => none

/-- Consumes characters as long as the spelling can go on: the characters
consumed, the state reached and the characters left. -/
def scan : State → List Char → List Char × State × List Char
  | s, [] => ([], s, [])
  | s, c :: cs =>
      match step s c with
      | some s' =>
          let (taken, last, rest) := scan s' cs
          (c :: taken, last, rest)
      | none => ([], s, c :: cs)

theorem run_scan
    (s : State)
    (cs : List Char) :
    run s (scan s cs).1 = some (scan s cs).2.1 := by
  induction cs generalizing s with
  | nil => rfl
  | cons c cs ih =>
      unfold scan
      split
      · rename_i s' h
        simp only [run, h]
        exact ih s'
      · rfl

/-- A character that may not stand right behind a number. -/
def mayNotFollow (c : Char) : Bool :=
  c.isDigit || c == '.' || isNameStart c

/-- The automaton ends in one of these states. -/
def spells (accepting : List State) (cs : List Char) : Bool :=
  match run .start cs with
  | some s => accepting.contains s
  | none => false

/-- The states in which an integer is complete. -/
def intStates : List State := [.zero, .whole]

/-- The states in which a float is complete. -/
def floatStates : List State := [.fraction, .exponentDigits]

end Number

/-- The source text of an integer: no superfluous leading zero. -/
structure IntLiteral where
  text : String
  spelled : Number.spells Number.intStates text.toList = true
  deriving DecidableEq

/-- The source text of a float: an integer with a fraction, an exponent or both. -/
structure FloatLiteral where
  text : String
  spelled : Number.spells Number.floatStates text.toList = true
  deriving DecidableEq

namespace Number

/-- The value of a string of decimal digits; other characters count as nothing. -/
def digitsValue (cs : List Char) : Nat :=
  cs.foldl (fun n c => if c.isDigit then 10 * n + (c.toNat - '0'.toNat) else n) 0

/-- The value of an integer literal. -/
def intValue (cs : List Char) : Int :=
  match cs with
  | '-' :: ds => - (digitsValue ds : Int)
  | ds => (digitsValue ds : Int)

/-- The number lies in the range of signed 32-bit integers. -/
def fitsInt32 (cs : List Char) : Bool :=
  decide (-2147483648 ≤ intValue cs) && decide (intValue cs ≤ 2147483647)

/-- The decimal exponent that stands behind `e` or `E`. -/
def exponentValue (cs : List Char) : Int :=
  match cs.dropWhile (fun c => c != 'e' && c != 'E') with
  | _ :: '+' :: ds => (digitsValue ds : Int)
  | _ :: ds => intValue ds
  | [] => 0

/-- The digits of whole part and fraction as one number, and the number of
digits in the fraction. -/
def significand (cs : List Char) : Nat × Nat :=
  let mantissa := cs.takeWhile (fun c => c != 'e' && c != 'E')
  let whole := mantissa.takeWhile (· != '.')
  let fraction := (mantissa.dropWhile (· != '.')).drop 1
  (digitsValue (whole ++ fraction), fraction.length)

/-- The smallest magnitude that no longer rounds to a finite double: halfway
between the largest double and the next power of two. -/
def doubleOverflow : Nat := Nat.pow 2 1024 - Nat.pow 2 970

/-- The number rounds to a finite double.  Far beyond or far below the bound the
exponent decides, so that no large power has to be formed. -/
def fitsDouble (cs : List Char) : Bool :=
  let (m, places) := significand cs
  let e := exponentValue cs - places
  let digits := (Nat.toDigits 10 m).length
  if m = 0 then true
  else if e + digits > 400 then false
  else if e + digits < 300 then true
  else if 0 ≤ e then decide (m * Nat.pow 10 e.toNat < doubleOverflow)
  else decide (m < doubleOverflow * Nat.pow 10 (-e).toNat)

end Number

end Supergraph
