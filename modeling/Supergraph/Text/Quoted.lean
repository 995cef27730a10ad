/-!
# Quoted strings

The text of a string between two quotes, in which the quote, the backslash and
most control characters are escaped.  A tab stands for itself.  Reading knows all
escapes of the language: besides the short ones a character may be given by its
number, in four hexadecimal digits, in any number of them between braces, or as a
surrogate pair of twice four digits.  Writing uses the short escapes where there
is one and four upper-case hexadecimal digits otherwise.

A string ends on the line on which it begins, except that its very first
character may be a line break.

`read_encode`: what was written is read back, whatever follows the closing quote.
-/

namespace Supergraph
namespace Quoted

/-- The upper-case hexadecimal digit of a number below sixteen. -/
def hexDigit (n : Nat) : Char :=
  if n < 10 then Char.ofNat ('0'.toNat + n) else Char.ofNat ('A'.toNat + (n - 10))

/-- The value of a hexadecimal digit of either case. -/
def hexValue? (c : Char) : Option Nat :=
  if '0' ≤ c ∧ c ≤ '9' then some (c.toNat - '0'.toNat)
  else if 'a' ≤ c ∧ c ≤ 'f' then some (c.toNat - 'a'.toNat + 10)
  else if 'A' ≤ c ∧ c ≤ 'F' then some (c.toNat - 'A'.toNat + 10)
  else none

/-- The character of this code point, unless it is half of a surrogate pair. -/
def codePoint? (n : Nat) : Option Char :=
  if n.isValidChar then some (Char.ofNat n) else none

/-- The number written by four hexadecimal digits. -/
def unit? (a b c d : Char) : Option Nat :=
  match hexValue? a, hexValue? b, hexValue? c, hexValue? d with
  | some a, some b, some c, some d => some (((a * 16 + b) * 16 + c) * 16 + d)
  | _, _, _, _ => none

/-- The character of a surrogate pair. -/
def pair? (high low : Nat) : Option Char :=
  if 0xd800 ≤ high ∧ high < 0xdc00 ∧ 0xdc00 ≤ low ∧ low < 0xe000 then
    codePoint? (0x10000 + (high - 0xd800) * 0x400 + (low - 0xdc00))
  else none

/-- The character behind a backslash stands for this one. -/
def unescape? (c : Char) : Option Char :=
  if c = '"' then some '"'
  else if c = '\\' then some '\\'
  else if c = '/' then some '/'
  else if c = 'b' then some '\x08'
  else if c = 'f' then some '\x0c'
  else if c = 'n' then some '\n'
  else if c = 'r' then some '\r'
  else if c = 't' then some '\t'
  else none

/-- One character as it is written between quotes. -/
def escape (c : Char) : List Char :=
  if c = '"' then ['\\', '"']
  else if c = '\\' then ['\\', '\\']
  else if c = '\n' then ['\\', 'n']
  else if c = '\r' then ['\\', 'r']
  else if c = '\x08' then ['\\', 'b']
  else if c = '\x0c' then ['\\', 'f']
  else if c.toNat < 32 ∧ c ≠ '\t' then
    ['\\', 'u', '0', '0', hexDigit (c.toNat / 16), hexDigit (c.toNat % 16)]
  else [c]

/-- The characters as they are written between quotes. -/
def encode (cs : List Char) : List Char :=
  cs.flatMap escape

/-- A character in front of what has been read. -/
def prepend (x : Char) (p : List Char × List Char) : List Char × List Char :=
  (x :: p.1, p.2)

mutual

/-- Reads up to the closing quote, which stands on the same line: the characters
meant and the rest.  An unknown escape and half of a surrogate pair are
refused. -/
def readLine : List Char → Option (List Char × List Char)
  | [] => none
  | '"' :: rest => some ([], rest)
  | '\\' :: 'u' :: '{' :: d :: rest =>
      match hexValue? d with
      | some n => readBraced n rest
      | none => none
  | '\\' :: 'u' :: a :: b :: c :: d :: rest =>
      match unit? a b c d with
      | some n =>
          match codePoint? n with
          | some x => (readLine rest).map (prepend x)
          | none =>
              match rest with
              | '\\' :: 'u' :: e :: f :: g :: h :: rest =>
                  match (unit? e f g h).bind (pair? n) with
                  | some x => (readLine rest).map (prepend x)
                  | none => none
              | _ => none
      | none => none
  | '\\' :: e :: rest =>
      match unescape? e with
      | some x => (readLine rest).map (prepend x)
      | none => none
  | c :: rest =>
      if c = '\n' ∨ c = '\r' ∨ c = '\\' then none
      else (readLine rest).map (prepend c)

/-- Reads on behind the first digits of a number between braces. -/
def readBraced (n : Nat) : List Char → Option (List Char × List Char)
  | [] => none
  | '}' :: rest =>
      match codePoint? n with
      | some x => (readLine rest).map (prepend x)
      | none => none
  | d :: rest =>
      match hexValue? d with
      | some m => readBraced (n * 16 + m) rest
      | none => none

end

/-- Reads up to the closing quote: the characters meant and the rest.  The first
character may be a line break. -/
def read : List Char → Option (List Char × List Char)
  | '\n' :: rest => (readLine rest).map (prepend '\n')
  | '\r' :: rest => (readLine rest).map (prepend '\r')
  | cs => readLine cs

/-- The two digits written for a control character read back. -/
theorem unit?_hexDigit_of_lt :
    ∀ n < 32,
      (unit? '0' '0' (hexDigit (n / 16)) (hexDigit (n % 16))).bind codePoint?
        = some (Char.ofNat n) := by
  decide

/-- One escaped character is read as that character. -/
theorem readLine_escape
    (c : Char)
    (rest : List Char) :
    readLine (escape c ++ rest) = (readLine rest).map (prepend c) := by
  unfold escape
  split
  · subst_vars
    simp [readLine, unescape?]
  split
  · subst_vars
    simp [readLine, unescape?]
  split
  · subst_vars
    simp [readLine, unescape?]
  split
  · subst_vars
    simp [readLine, unescape?]
  split
  · subst_vars
    simp [readLine, unescape?]
  split
  · subst_vars
    simp [readLine, unescape?]
  split
  · rename_i h
    have h' := unit?_hexDigit_of_lt c.toNat h.1
    rw [Char.ofNat_toNat, Option.bind_eq_some_iff] at h'
    obtain ⟨n, hn, hx⟩ := h'
    simp [readLine, hn, hx]
  · rename_i h1 h2 h3 h4 h5 h6 h7
    simp only [List.cons_append, List.nil_append]
    rw [readLine]
    · simp [h2, h3, h4]
    · intro h
      exact h1 h
    all_goals intros; simp_all

/-- What was written is read back on the same line, up to the closing quote. -/
theorem readLine_encode
    (cs rest : List Char) :
    readLine (encode cs ++ '"' :: rest) = some (cs, rest) := by
  induction cs with
  | nil => simp [encode, readLine]
  | cons c cs ih =>
      have : encode (c :: cs) ++ '"' :: rest = escape c ++ (encode cs ++ '"' :: rest) := by
        simp [encode]
      rw [this, readLine_escape, ih]
      rfl

/-- No escaped character begins with a line break. -/
theorem read_escape
    (c : Char)
    (rest : List Char) :
    read (escape c ++ rest) = readLine (escape c ++ rest) := by
  unfold escape
  repeat' split
  all_goals simp only [List.cons_append, List.nil_append]
  all_goals rw [read]
  all_goals intros; simp_all

/-- What was written is read back, up to the closing quote. -/
theorem read_encode
    (cs rest : List Char) :
    read (encode cs ++ '"' :: rest) = some (cs, rest) := by
  rw [← readLine_encode cs rest]
  cases cs with
  | nil => simp [encode, read]
  | cons c cs =>
      have : encode (c :: cs) ++ '"' :: rest = escape c ++ (encode cs ++ '"' :: rest) := by
        simp [encode]
      rw [this, read_escape]

end Quoted
end Supergraph
