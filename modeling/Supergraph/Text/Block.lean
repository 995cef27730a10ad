/-!
# Block strings

A block string stands between triple quotes and may run over several lines.  Its
value is not its raw text: the common indentation of all lines but the first is
taken away, blank lines at both ends are dropped, and every line break becomes a
line feed.  Only a value with `canHold` is the value of some block string.

`write` puts a value between triple quotes, on one line if it is short and on
lines of its own at a level of indentation otherwise.
-/

namespace Supergraph
namespace Block

/-- Reads up to the closing triple quote: the raw characters, with the escaped
triple quote already resolved, and the rest. -/
def read : List Char → Option (List Char × List Char)
  | [] => none
  | '"' :: '"' :: '"' :: rest => some ([], rest)
  | '\\' :: '"' :: '"' :: '"' :: rest =>
      match read rest with
      | some (xs, r) => some ('"' :: '"' :: '"' :: xs, r)
      | none => none
  | c :: rest =>
      match read rest with
      | some (xs, r) => some (c :: xs, r)
      | none => none

/-- The lines of a text; a line ends at a line feed, a carriage return or both. -/
def lines : List Char → List (List Char)
  | [] => [[]]
  | '\r' :: '\n' :: cs => [] :: lines cs
  | '\r' :: cs => [] :: lines cs
  | '\n' :: cs => [] :: lines cs
  | c :: cs =>
      match lines cs with
      | [] => [[c]]
      | l :: ls => (c :: l) :: ls

/-- Spaces and tabs indent a line. -/
def isBlank (c : Char) : Bool :=
  c == ' ' || c == '\t'

/-- A line without any text. -/
def isBlankLine (l : List Char) : Bool :=
  l.all isBlank

/-- The number of spaces and tabs at the head of a line. -/
def indent (l : List Char) : Nat :=
  (l.takeWhile isBlank).length

/-- The least indentation among the lines with text. -/
def commonIndent (ls : List (List Char)) : Nat :=
  (((ls.filter (fun l => !isBlankLine l)).map indent).min?).getD 0

/-- Takes the common indentation from all lines but the first. -/
def dedent : List (List Char) → List (List Char)
  | [] => []
  | l :: ls => l :: ls.map (fun m => m.drop (commonIndent ls))

/-- The list without its blank lines at both ends. -/
def trimLines (ls : List (List Char)) : List (List Char) :=
  ((ls.dropWhile isBlankLine).reverse.dropWhile isBlankLine).reverse

/-- The lines with a line feed between any two. -/
def joinLines : List (List Char) → List Char
  | [] => []
  | [l] => l
  | l :: ls => l ++ '\n' :: joinLines ls

/-- The value of a block string with this raw text. -/
def value (raw : List Char) : List Char :=
  joinLines (trimLines (dedent (lines raw)))

/-- Some block string has this value: there is no carriage return, the first and
the last line have text, and some line with text is not indented. -/
def canHold (cs : List Char) : Bool :=
  let ls := lines cs
  !cs.contains '\r'
    && !(ls.head?.any isBlankLine)
    && !(ls.getLast?.any isBlankLine)
    && commonIndent ls == 0

/-- The text with every triple quote escaped. -/
def encode : List Char → List Char
  | '"' :: '"' :: '"' :: cs => '\\' :: '"' :: '"' :: '"' :: encode cs
  | c :: cs => c :: encode cs
  | [] => []

/-- A value longer than this many bytes is written on lines of its own. -/
def lineLimit : Nat := 70

/-- The value has to be written on lines of its own. -/
def needsLines (cs : List Char) : Bool :=
  cs.contains '\n'
    || decide (lineLimit < (String.ofList cs).utf8ByteSize)
    || cs.getLast? == some '"'
    || cs.getLast? == some '\\'

/-- The blanks in front of a line at a level of indentation. -/
def margin (level : Nat) : List Char :=
  List.replicate (2 * level) ' '

/-- The delimiter of a block string. -/
def tripleQuote : List Char := ['"', '"', '"']

/-- The value between triple quotes at a level of indentation.  An empty line is
not indented. -/
def write (level : Nat) (cs : List Char) : List Char :=
  if needsLines cs then
    let body := (lines cs).flatMap fun l =>
      (if l.isEmpty then [] else margin level) ++ encode l ++ ['\n']
    tripleQuote ++ '\n' :: body ++ margin level ++ tripleQuote
  else
    tripleQuote ++ encode cs ++ tripleQuote

end Block
end Supergraph
