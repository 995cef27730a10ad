import Supergraph.Token
import Supergraph.Text.Block

/-!
# From text to tokens

`Lexeme.scan` cuts a text into its tokens.  White space, commas, the byte order
mark and comments separate tokens; of all that only the commas are remembered.
Each token is as long as possible, and a number may not run into a name or another
number.

The text is refused if some part of it is no token.
-/

namespace Supergraph

/-- White space and the byte order mark. -/
def isBlank (c : Char) : Bool :=
  c == ' ' || c == '\t' || c == '\n' || c == '\r' || c == '\ufeff'

/-- A comment runs to the end of the line. -/
def isCommentChar (c : Char) : Bool :=
  c != '\n' && c != '\r'

namespace Token

/-- The name at the head of the text. -/
def scanName (cs : List Char) : Option (Token × List Char) :=
  match Name.ofString? (String.ofList (cs.takeWhile isNameChar)) with
  | some n => some (.name n, cs.dropWhile isNameChar)
  | none => none

/-- The number with these characters, as far as the automaton came. -/
def ofNumber? (s : String) : Option Token :=
  if h : Number.spells Number.intStates s.toList = true then
    some (.int ⟨s, h⟩)
  else if h : Number.spells Number.floatStates s.toList = true then
    some (.float ⟨s, h⟩)
  else none

/-- The number at the head of the text. -/
def scanNumber (cs : List Char) : Option (Token × List Char) :=
  let (taken, _, rest) := Number.scan .start cs
  if rest.head?.any Number.mayNotFollow then none
  else (ofNumber? (String.ofList taken)).map (fun t => (t, rest))

/-- The string whose opening quote has been read. -/
def scanString : List Char → Option (Token × List Char)
  | '"' :: '"' :: rest =>
      (Block.read rest).map fun (raw, r) => (.string (String.ofList (Block.value raw)), r)
  | rest =>
      (Quoted.read rest).map fun (cs, r) => (.string (String.ofList cs), r)

/-- The token at the head of a text that begins with `c`. -/
def scanOne (c : Char) (cs : List Char) : Option (Token × List Char) :=
  if c = '"' then scanString cs
  else if c = '.' then
    match cs with
    | '.' :: '.' :: rest => some (.punct .spread, rest)
    | _ => none
  else if isNameStart c then scanName (c :: cs)
  else if c.isDigit || c == '-' then scanNumber (c :: cs)
  else (Punctuator.ofChar? c).map (fun p => (.punct p, cs))

end Token

namespace Lexeme

/-- Cuts the characters into tokens, in at most `fuel` steps.  `comma` tells
whether there has been a comma since the last token. -/
def scanAll : Nat → Bool → List Char → Option (List Lexeme)
  | 0, _, _ => none
  | _ + 1, _, [] => some []
  | fuel + 1, comma, c :: cs =>
      if isBlank c then scanAll fuel comma cs
      else if c = ',' then scanAll fuel true cs
      else if c = '#' then scanAll fuel comma (cs.dropWhile isCommentChar)
      else
        match Token.scanOne c cs with
        | some (t, rest) => (scanAll fuel false rest).map (⟨t, comma⟩ :: ·)
        | none => none

/-- The tokens of a text.  Every step uses up a character, so the length of the
text bounds their number. -/
def scan (s : String) : Option (List Lexeme) :=
  scanAll (s.toList.length + 1) false s.toList

end Lexeme

end Supergraph
