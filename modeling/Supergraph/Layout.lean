import Supergraph.Token
import Supergraph.Text.Block

/-!
# Layout

Text is written as a list of pieces: tokens in their canonical spelling, block
strings, and the blanks between them.  Only the tokens and block strings mean
something; the other pieces are separators.  Lines are indented by two spaces a
level.
-/

namespace Supergraph

/-- A part of a written text. -/
inductive Piece where
  | token (t : Token)
  | block (level : Nat) (value : String)
  | space
  | comma
  | newline (level : Nat)
  deriving DecidableEq

/-- A written text, piece by piece. -/
abbrev Layout := List Piece

namespace Piece

/-- The characters of a piece. -/
def text : Piece → String
  | .token t => t.text
  | .block level s => String.ofList (Block.write level s.toList)
  | .space => " "
  | .comma => ","
  | .newline level => "\n" ++ String.ofList (Block.margin level)

/-- The token that a piece stands for. -/
def token? : Piece → Option Token
  | .token t => some t
  | .block _ s => some (.string s)
  | _ => none

end Piece

namespace Layout

/-- The text of a layout. -/
def render (l : Layout) : String :=
  String.join (l.map Piece.text)

/-- The tokens of a layout, in order. -/
def tokens (l : Layout) : List Token :=
  l.filterMap Piece.token?

/-- A punctuator. -/
def punct (p : Punctuator) : Layout :=
  [.token (.punct p)]

/-- A name. -/
def name (n : Name) : Layout :=
  [.token (.name n)]

/-- A separator between any two layouts. -/
def separated (sep : Layout) : List Layout → Layout
  | [] => []
  | [l] => l
  | l :: ls => l ++ sep ++ separated sep ls

/-- Layouts on one line with a space between any two. -/
def spaced (ls : List Layout) : Layout :=
  separated [.space] ls

/-- Layouts on one line with a comma and a space between any two. -/
def listed (ls : List Layout) : Layout :=
  separated [.comma, .space] ls

/-- Each layout on a line of its own at a level, followed by a comma. -/
def itemized (level : Nat) (ls : List Layout) : Layout :=
  ls.flatMap (fun l => .newline level :: l ++ [.comma])

/-- Each layout on a line of its own at a level. -/
def stacked (level : Nat) (ls : List Layout) : Layout :=
  ls.flatMap (fun l => .newline level :: l)

/-- Where line breaks are allowed, and at which level of indentation. -/
inductive Style where
  | oneLine
  | broken (level : Nat)
  deriving DecidableEq

/-- Items between brackets: on one line, or each on a line of its own. -/
def bracketed (style : Style) (opening close : Punctuator) (ls : List Layout) : Layout :=
  match style, ls with
  | _, [] => punct opening ++ punct close
  | .oneLine, ls => punct opening ++ listed ls ++ punct close
  | .broken level, ls =>
      punct opening ++ itemized (level + 1) ls ++ .newline level :: punct close

/-- The style of what stands between brackets. -/
def Style.inner : Style → Style
  | .oneLine => .oneLine
  | .broken level => .broken (level + 1)

/-- A string: a block string where line breaks are allowed, the string has one
and some block string can hold it; quoted otherwise. -/
def string (style : Style) (s : String) : Layout :=
  match style with
  | .oneLine => [.token (.string s)]
  | .broken level =>
      if s.toList.contains '\n' && Block.canHold s.toList then [.block level s]
      else [.token (.string s)]

/-- The description of an element, on lines of its own in front of it.  It is a
block string whenever one can hold it. -/
def doc (level : Nat) : Option String → Layout
  | none => []
  | some s =>
      if Block.canHold s.toList then [.block level s, .newline level]
      else [.token (.string s), .newline level]

end Layout

end Supergraph
