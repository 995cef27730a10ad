import Supergraph.Text.Quoted

/-!
# JSON texts

The data that a JSON text stands for, and the reader of such texts.  An object
keeps its entries in the order of the text, with repetitions; what they mean is
for the user of the data to say.  A number keeps its source text.
-/

namespace Supergraph

/-- JSON data. -/
inductive Json where
  | null
  | boolean (b : Bool)
  | number (text : String)
  | string (s : String)
  | array (items : List Json)
  | object (entries : List (String × Json))

namespace Json

/-- White space between the parts of a text. -/
def isSpace (c : Char) : Bool :=
  c == ' ' || c == '\t' || c == '\n' || c == '\r'

/-- The characters behind white space. -/
def skipSpace (cs : List Char) : List Char :=
  cs.dropWhile isSpace

/-- The rest behind these characters, if the text begins with them. -/
def after? : List Char → List Char → Option (List Char)
  | [], cs => some cs
  | w :: ws, c :: cs => if w = c then after? ws cs else none
  | _ :: _, [] => none

/-- A part of a string: a character as it stands or behind a backslash, or a
UTF-16 unit given by its number. -/
inductive StringPart where
  | char (c : Char)
  | unit (n : Nat)

/-- The characters that the parts of a string stand for.  Two units may make up a
surrogate pair; half of one is refused. -/
def joinParts : List StringPart → Option (List Char)
  | [] => some []
  | .char c :: ps => (joinParts ps).map (c :: ·)
  | .unit high :: .unit low :: ps =>
      match Quoted.pair? high low with
      | some x => (joinParts ps).map (x :: ·)
      | none =>
          match Quoted.codePoint? high, joinParts (.unit low :: ps) with
          | some x, some xs => some (x :: xs)
          | _, _ => none
  | .unit n :: ps =>
      match Quoted.codePoint? n, joinParts ps with
      | some x, some xs => some (x :: xs)
      | _, _ => none

/-- Reads up to the closing quote: the parts of the string and the rest.  Control
characters and unknown escapes are refused. -/
def readParts : List Char → Option (List StringPart × List Char)
  | [] => none
  | '"' :: rest => some ([], rest)
  | '\\' :: 'u' :: a :: b :: c :: d :: rest =>
      match Quoted.unit? a b c d, readParts rest with
      | some n, some (ps, r) => some (.unit n :: ps, r)
      | _, _ => none
  | '\\' :: e :: rest =>
      match Quoted.unescape? e, readParts rest with
      | some x, some (ps, r) => some (.char x :: ps, r)
      | _, _ => none
  | c :: rest =>
      if c.toNat < 32 ∨ c = '\\' then none
      else (readParts rest).map (fun (ps, r) => (.char c :: ps, r))

/-- Reads up to the closing quote: the characters meant and the rest. -/
def readString (cs : List Char) : Option (List Char × List Char) :=
  match readParts cs with
  | some (ps, rest) => (joinParts ps).map (fun xs => (xs, rest))
  | none => none

/-- At least one decimal digit: the digits and the rest. -/
def readDigits (cs : List Char) : Option (List Char × List Char) :=
  match cs.takeWhile Char.isDigit with
  | [] => none
  | ds => some (ds, cs.dropWhile Char.isDigit)

/-- The whole part of a number: a zero, or digits that do not begin with one. -/
def readWhole : List Char → Option (List Char × List Char)
  | '0' :: cs => some (['0'], cs)
  | cs => readDigits cs

/-- A fraction, if there is one. -/
def readFraction : List Char → Option (List Char × List Char)
  | '.' :: cs => (readDigits cs).map (fun (ds, r) => ('.' :: ds, r))
  | cs => some ([], cs)

/-- An exponent, if there is one. -/
def readExponent : List Char → Option (List Char × List Char)
  | c :: cs =>
      if c = 'e' ∨ c = 'E' then
        match cs with
        | '+' :: ds => (readDigits ds).map (fun (ds, r) => (c :: '+' :: ds, r))
        | '-' :: ds => (readDigits ds).map (fun (ds, r) => (c :: '-' :: ds, r))
        | ds => (readDigits ds).map (fun (ds, r) => (c :: ds, r))
      else some ([], c :: cs)
  | [] => some ([], [])

/-- A number: its characters and the rest. -/
def readNumber (cs : List Char) : Option (List Char × List Char) := do
  let (sign, cs) := match cs with
    | '-' :: cs => (['-'], cs)
    | cs => ([], cs)
  let (whole, cs) ← readWhole cs
  let (fraction, cs) ← readFraction cs
  let (exponent, cs) ← readExponent cs
  return (sign ++ whole ++ fraction ++ exponent, cs)

mutual

/-- Reads data of at most `fuel` levels and items. -/
def readValue : Nat → List Char → Option (Json × List Char)
  | 0, _ => none
  | fuel + 1, cs =>
      match skipSpace cs with
      | '"' :: rest => (readString rest).map (fun (s, r) => (.string (String.ofList s), r))
      | '[' :: rest =>
          match skipSpace rest with
          | ']' :: rest => some (.array [], rest)
          | rest => (readItems fuel rest).map (fun (xs, r) => (.array xs, r))
      | '{' :: rest =>
          match skipSpace rest with
          | '}' :: rest => some (.object [], rest)
          | rest => (readEntries fuel rest).map (fun (xs, r) => (.object xs, r))
      | 'n' :: rest => (after? ['u', 'l', 'l'] rest).map (fun r => (.null, r))
      | 't' :: rest => (after? ['r', 'u', 'e'] rest).map (fun r => (.boolean true, r))
      | 'f' :: rest => (after? ['a', 'l', 's', 'e'] rest).map (fun r => (.boolean false, r))
      | cs => (readNumber cs).map (fun (s, r) => (.number (String.ofList s), r))

/-- Reads items up to the end of the array; at least one. -/
def readItems : Nat → List Char → Option (List Json × List Char)
  | 0, _ => none
  | fuel + 1, cs =>
      match readValue fuel cs with
      | none => none
      | some (x, rest) =>
          match skipSpace rest with
          | ']' :: rest => some ([x], rest)
          | ',' :: rest => (readItems fuel rest).map (fun (xs, r) => (x :: xs, r))
          | _ => none

/-- Reads entries up to the end of the object; at least one. -/
def readEntries : Nat → List Char → Option (List (String × Json) × List Char)
  | 0, _ => none
  | fuel + 1, cs =>
      match skipSpace cs with
      | '"' :: rest =>
          match readString rest with
          | none => none
          | some (k, rest) =>
              match skipSpace rest with
              | ':' :: rest =>
                  match readValue fuel rest with
                  | none => none
                  | some (v, rest) =>
                      match skipSpace rest with
                      | '}' :: rest => some ([(String.ofList k, v)], rest)
                      | ',' :: rest =>
                          (readEntries fuel rest).map
                            (fun (xs, r) => ((String.ofList k, v) :: xs, r))
                      | _ => none
              | _ => none
      | _ => none

end

/-- The data that a text stands for.  Every level and every item uses up a
character, so the length of the text bounds their number. -/
def parse? (s : String) : Option Json :=
  match readValue (2 * s.toList.length + 1) s.toList with
  | some (v, rest) => if (skipSpace rest).isEmpty then some v else none
  | none => none

end Json

end Supergraph
