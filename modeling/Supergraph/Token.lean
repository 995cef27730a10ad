import Supergraph.Text.Number
import Supergraph.Text.Quoted

/-!
# Tokens

The significant parts of a GraphQL text: punctuators, names, numbers and
strings.  A token carries what it means, so a string token carries its value and
not the escapes it was written with.  `Token.text` is the canonical spelling.
-/

namespace Supergraph

/-- The punctuators of the language. -/
inductive Punctuator where
  | bang
  | dollar
  | ampersand
  | leftParen
  | rightParen
  | spread
  | colon
  | equals
  | atSign
  | leftBracket
  | rightBracket
  | leftBrace
  | pipe
  | rightBrace
  deriving DecidableEq

/-- The spelling of a punctuator. -/
def Punctuator.text : Punctuator → String
  | .bang => "!"
  | .dollar => "$"
  | .ampersand => "&"
  | .leftParen => "("
  | .rightParen => ")"
  | .spread => "..."
  | .colon => ":"
  | .equals => "="
  | .atSign => "@"
  | .leftBracket => "["
  | .rightBracket => "]"
  | .leftBrace => "\x7b"
  | .pipe => "|"
  | .rightBrace => "\x7d"

/-- The punctuators that are a single character. -/
def Punctuator.ofChar? : Char → Option Punctuator
  | '!' => some .bang
  | '$' => some .dollar
  | '&' => some .ampersand
  | '(' => some .leftParen
  | ')' => some .rightParen
  | ':' => some .colon
  | '=' => some .equals
  | '@' => some .atSign
  | '[' => some .leftBracket
  | ']' => some .rightBracket
  | '{' => some .leftBrace
  | '|' => some .pipe
  | '}' => some .rightBrace
  | _ => none

/-- A significant part of a text. -/
inductive Token where
  | punct (p : Punctuator)
  | name (n : Name)
  | int (literal : IntLiteral)
  | float (literal : FloatLiteral)
  | string (value : String)
  deriving DecidableEq

/-- A token in its place.  Commas mean nothing by themselves, but a few places of
the grammar do not let one stand between two tokens. -/
structure Lexeme where
  token : Token
  /-- A comma stands somewhere between the token before and this one. -/
  afterComma : Bool
  deriving DecidableEq

namespace Token

/-- A string in quotes. -/
def quoted (s : String) : String :=
  "\"" ++ String.ofList (Quoted.encode s.toList) ++ "\""

/-- The canonical spelling of a token. -/
def text : Token → String
  | .punct p => p.text
  | .name n => n.text
  | .int l => l.text
  | .float l => l.text
  | .string s => quoted s

end Token

end Supergraph
