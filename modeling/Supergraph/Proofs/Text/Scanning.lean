import Supergraph.Proofs.Text.Block
import Supergraph.Layout
import Supergraph.Token.Scan

/-!
# Tokens are read back

A layout is *legible* if no two of its words stand side by side and each of its block
strings can hold its value.  The text of a legible layout is cut into the tokens of the
layout, with the commas between them (`scan_render`).
-/

namespace Supergraph

section Characters

/-- A character that cannot continue a name, a number or a string. -/
def isBreak (c : Char) : Bool :=
  !isNameChar c && c != '.' && c != '+' && c != '-' && c != '"'

/-- What stands behind a word does not continue it. -/
def Broken (cs : List Char) : Prop :=
  ∀ c ∈ cs.head?, isBreak c = true

variable {c : Char}

theorem isNameStart_of_isDigit
    (h : c.isDigit = true) :
    isNameStart c = false := by
  have other : c ≠ '_' := by
    rintro rfl
    revert h
    decide
  have last : c.toNat ≤ 57 := (Bool.and_eq_true_iff.mp h).2 |> of_decide_eq_true
  have upper : c.isUpper = decide (c.val ≥ 'A'.val ∧ c.val ≤ 'Z'.val) := rfl
  have lower : c.isLower = (decide (c.val ≥ 'a'.val) && decide (c.val ≤ 'z'.val)) := rfl
  have alpha : c.isAlpha = (c.isUpper || c.isLower) := rfl
  simp [isNameStart, alpha, upper, lower, other, UInt32.le_iff_toNat_le]
  omega

theorem isNameChar_of_isBreak
    (h : isBreak c = true) :
    isNameChar c = false := by
  simp only [isBreak, Bool.and_eq_true, Bool.not_eq_true'] at h
  exact h.1.1.1.1

theorem isDigit_of_isBreak
    (h : isBreak c = true) :
    c.isDigit = false := by
  cases digit : c.isDigit with
  | false => rfl
  | true =>
      have continues : isNameChar c = true := by simp [isNameChar, Char.isAlphanum, digit]
      rw [isNameChar_of_isBreak h] at continues
      cases continues

theorem ne_of_isBreak
    (h : isBreak c = true)
    {x : Char}
    (hx : isBreak x = false) :
    c ≠ x := by
  rintro rfl
  rw [h] at hx
  cases hx

end Characters

namespace Number

theorem step_of_isBreak
    {c : Char}
    (h : isBreak c = true)
    (s : State) :
    step s c = none := by
  have digit := isDigit_of_isBreak h
  have other := fun x => ne_of_isBreak h (x := x)
  cases s <;>
    simp [step, digit, other '-' (by decide), other '0' (by decide), other '.' (by decide),
      other 'e' (by decide), other 'E' (by decide), other '+' (by decide)]

/-- A number is read up to the end of its spelling. -/
theorem scan_append
    {s s' : State}
    {cs rest : List Char}
    (h : run s cs = some s')
    (broken : Broken rest) :
    scan s (cs ++ rest) = (cs, s', rest) := by
  induction cs generalizing s with
  | nil =>
      cases h
      cases rest with
      | nil => rfl
      | cons c rest => simp [scan, step_of_isBreak (broken c rfl)]
  | cons c cs ih =>
      simp only [run] at h
      split at h
      · rename_i t ht
        simp [scan, ht, ih h]
      · cases h

theorem isDigit_or_minus_of_run
    {c : Char}
    {cs : List Char}
    {s : State}
    (h : run .start (c :: cs) = some s) :
    c.isDigit = true ∨ c = '-' := by
  simp only [run, step] at h
  split at h
  · rename_i t ht
    split at ht
    · rename_i minus
      exact Or.inr minus
    · split at ht
      · rename_i zero
        exact Or.inl (by rw [zero]; rfl)
      · split at ht
        · rename_i digit
          exact Or.inl digit
        · cases ht
  · cases h

end Number

namespace Token

/-- The token stands at the head of the text, with `rest` behind it. -/
def Heads (t : Token) (text rest : List Char) : Prop :=
  ∃ c cs, text = c :: cs ∧ Supergraph.isBlank c = false ∧ c ≠ ',' ∧ c ≠ '#' ∧
    scanOne c cs = some (t, rest)

variable {rest : List Char}

theorem heads_punct
    (p : Punctuator) :
    Heads (.punct p) (p.text.toList ++ rest) rest := by
  cases p <;> exact ⟨_, _, rfl, by decide, by decide, by decide, rfl⟩

theorem heads_name
    (n : Name)
    (broken : Broken rest) :
    Heads (.name n) (n.text.toList ++ rest) rest := by
  have all := all_isNameChar_of_spellsName n.spelled
  cases hcs : n.text.toList with
  | nil =>
      have spelled := n.spelled
      rw [hcs] at spelled
      cases spelled
  | cons c cs =>
      have start : isNameStart c = true := by
        have spelled := n.spelled
        rw [hcs] at spelled
        exact (Bool.and_eq_true_iff.mp spelled).1
      have other : ∀ x, isNameStart x = false → c ≠ x := by
        rintro x hx rfl
        rw [start] at hx
        cases hx
      have ends : rest.takeWhile isNameChar = [] ∧ rest.dropWhile isNameChar = rest := by
        cases rest with
        | nil => exact ⟨rfl, rfl⟩
        | cons x rest =>
            have stop := isNameChar_of_isBreak (broken x rfl)
            simp [stop]
      have continues : ∀ x ∈ c :: cs, isNameChar x = true := List.all_eq_true.mp (hcs ▸ all)
      have taken : (c :: (cs ++ rest)).takeWhile isNameChar = n.text.toList := by
        rw [← List.cons_append, List.takeWhile_append_of_pos continues, ends.1, List.append_nil, hcs]
      have left : (c :: (cs ++ rest)).dropWhile isNameChar = rest := by
        rw [← List.cons_append, List.dropWhile_append_of_pos continues, ends.2]
      refine ⟨c, cs ++ rest, rfl, ?_, other ',' (by decide), other '#' (by decide), ?_⟩
      · simp [Supergraph.isBlank, other ' ' (by decide), other '\t' (by decide),
          other '\n' (by decide), other '\r' (by decide), other '\ufeff' (by decide)]
      · simp [scanOne, other '"' (by decide), other '.' (by decide), start, scanName, taken, left,
          String.ofList_toList, Name.ofString?_text]

theorem heads_number
    {t : Token}
    {text : String}
    {s : Number.State}
    (spelled : Number.run .start text.toList = some s)
    (complete : s ≠ .start)
    (read : ofNumber? text = some t)
    (broken : Broken rest) :
    Heads t (text.toList ++ rest) rest := by
  cases hcs : text.toList with
  | nil =>
      rw [hcs] at spelled
      cases spelled
      exact absurd rfl complete
  | cons c cs =>
      have first : c.isDigit = true ∨ c = '-' := Number.isDigit_or_minus_of_run (hcs ▸ spelled)
      have other : ∀ x : Char, x.isDigit = false → x ≠ '-' → c ≠ x := by
        rintro x hx minus rfl
        rcases first with digit | rfl
        · rw [hx] at digit
          cases digit
        · exact minus rfl
      have start : isNameStart c = false := by
        rcases first with digit | rfl
        · exact isNameStart_of_isDigit digit
        · decide
      have numeric : (c.isDigit || c == '-') = true := by
        rcases first with digit | rfl
        · simp [digit]
        · decide
      have scanned : Number.scan .start (c :: (cs ++ rest)) = (text.toList, s, rest) := by
        rw [← List.cons_append, ← hcs]
        exact Number.scan_append spelled broken
      have stops : rest.head?.any Number.mayNotFollow = false := by
        cases rest with
        | nil => rfl
        | cons x rest =>
            have stop := broken x rfl
            have name : isNameStart x = false := by
              cases h : isNameStart x with
              | false => rfl
              | true =>
                  have continues := isNameChar_of_isNameStart h
                  rw [isNameChar_of_isBreak stop] at continues
                  cases continues
            simp [Number.mayNotFollow, isDigit_of_isBreak stop, name,
              ne_of_isBreak stop (x := '.') (by decide)]
      refine ⟨c, cs ++ rest, rfl, ?_, other ',' (by decide) (by decide),
        other '#' (by decide) (by decide), ?_⟩
      · simp [Supergraph.isBlank, other ' ' (by decide) (by decide),
          other '\t' (by decide) (by decide), other '\n' (by decide) (by decide),
          other '\r' (by decide) (by decide), other '\ufeff' (by decide) (by decide)]
      · simp [scanOne, other '"' (by decide) (by decide), other '.' (by decide) (by decide), start,
          numeric, scanNumber, scanned, stops, String.ofList_toList, read]

theorem heads_int
    (l : IntLiteral)
    (broken : Broken rest) :
    Heads (.int l) (l.text.toList ++ rest) rest := by
  have spelled := l.spelled
  unfold Number.spells at spelled
  split at spelled
  · rename_i s run
    refine heads_number run ?_ ?_ broken
    · rintro rfl
      revert spelled
      decide
    · rw [ofNumber?, dif_pos l.spelled]
  · cases spelled

theorem heads_float
    (l : FloatLiteral)
    (broken : Broken rest) :
    Heads (.float l) (l.text.toList ++ rest) rest := by
  have spelled := l.spelled
  unfold Number.spells at spelled
  split at spelled
  · rename_i s run
    have whole : ¬ Number.spells Number.intStates l.text.toList = true := by
      rw [Number.spells, run]
      revert spelled
      cases s <;> decide
    refine heads_number run ?_ ?_ broken
    · rintro rfl
      revert spelled
      decide
    · rw [ofNumber?, dif_neg whole, dif_pos l.spelled]
  · cases spelled

theorem encode_append_ne_quotes
    (cs : List Char)
    (broken : Broken rest)
    (xs : List Char) :
    Quoted.encode cs ++ '"' :: rest ≠ '"' :: '"' :: xs := by
  intro h
  cases cs with
  | nil =>
      obtain rfl : rest = '"' :: xs := by simpa [Quoted.encode] using h
      exact absurd (broken _ rfl) (by decide)
  | cons c cs =>
      have escaped : ∃ x ys, Quoted.escape c = x :: ys ∧ x ≠ '"' := by
        unfold Quoted.escape
        repeat' split
        all_goals exact ⟨_, _, rfl, by first | assumption | decide⟩
      obtain ⟨x, ys, hx, other⟩ := escaped
      simp only [Quoted.encode, List.flatMap_cons, hx, List.cons_append] at h
      exact other (List.cons.inj h).1

/-- A quoted string is read back; behind an empty one there is no third quote. -/
theorem heads_quoted
    (s : String)
    (broken : Broken rest) :
    Heads (.string s) ((quoted s).toList ++ rest) rest := by
  have text : (quoted s).toList ++ rest = '"' :: (Quoted.encode s.toList ++ '"' :: rest) := by
    simp [quoted]
  refine ⟨'"', _, text, by decide, by decide, by decide, ?_⟩
  unfold scanOne
  rw [if_pos rfl, scanString]
  · simp [Quoted.read_encode, String.ofList_toList]
  · exact fun xs h => encode_append_ne_quotes s.toList broken xs h

theorem heads_block
    {level : Nat}
    {s : String}
    (h : Block.canHold s.toList = true) :
    Heads (.string s) (Block.write level s.toList ++ rest) rest := by
  obtain ⟨body, xs, written, read, value⟩ := Block.read_write level h rest
  refine ⟨'"', _, written, by decide, by decide, by decide, ?_⟩
  simp [scanOne, scanString, read, value, String.ofList_toList]

end Token

namespace Piece

/-- A word could go on behind the piece. -/
def isOpen : Piece → Bool
  | .token (.punct _) => false
  | .token _ => true
  | .block _ _ => true
  | _ => false

/-- The piece could be taken for the rest of a word in front of it. -/
def mayContinue : Piece → Bool
  | .token (.punct p) => p == .spread
  | .token _ => true
  | .block _ _ => true
  | _ => false

/-- What is written as a block string can be. -/
def Writable : Piece → Prop
  | .block _ s => Block.canHold s.toList = true
  | _ => True

theorem toList_newline
    (level : Nat) :
    (newline level).text.toList = '\n' :: Block.margin level := by
  simp [text]

/-- What does not continue a word begins with a character that breaks it off. -/
theorem exists_break
    {piece : Piece}
    (h : piece.mayContinue = false) :
    ∃ c cs, piece.text.toList = c :: cs ∧ isBreak c = true := by
  cases piece with
  | token t =>
      cases t with
      | punct p =>
          cases p
          case spread => cases h
          all_goals exact ⟨_, _, rfl, by decide⟩
      | name n => cases h
      | int l => cases h
      | float l => cases h
      | string s => cases h
  | block level s => cases h
  | space => exact ⟨' ', [], rfl, by decide⟩
  | comma => exact ⟨',', [], rfl, by decide⟩
  | newline level => exact ⟨'\n', _, toList_newline level, by decide⟩

/-- A piece that stands for a token is read as that token. -/
theorem heads_token
    {piece : Piece}
    {t : Token}
    (token : piece.token? = some t)
    (writable : piece.Writable)
    {rest : List Char}
    (broken : piece.isOpen = true → Broken rest) :
    t.Heads (piece.text.toList ++ rest) rest := by
  cases piece with
  | token t =>
      cases token
      cases t with
      | punct p => exact Token.heads_punct p
      | name n => exact Token.heads_name n (broken rfl)
      | int l => exact Token.heads_int l (broken rfl)
      | float l => exact Token.heads_float l (broken rfl)
      | string s => exact Token.heads_quoted s (broken rfl)
  | block level s =>
      cases token
      rw [text, String.toList_ofList]
      exact Token.heads_block writable
  | space => cases token
  | comma => cases token
  | newline level => cases token

end Piece

namespace Layout

/-- No words run into each other, and every block string can be written.  The first piece
may stand behind a word if `behind` says that it has to. -/
def Legible : Bool → Layout → Prop
  | _, [] => True
  | behind, piece :: l =>
      (behind = true → piece.mayContinue = false) ∧ piece.Writable ∧ Legible piece.isOpen l

/-- The tokens with the commas in front of them; there may be one in front of all. -/
def lexemes : Bool → Layout → List Lexeme
  | _, [] => []
  | comma, piece :: l =>
      match piece.token? with
      | some t => ⟨t, comma⟩ :: lexemes false l
      | none => lexemes (comma || piece == .comma) l

/-- The characters of a layout. -/
def characters (l : Layout) : List Char :=
  l.flatMap (fun piece => piece.text.toList)

variable {l : Layout}

theorem toList_render :
    l.render.toList = l.characters := by
  rw [render, String.toList_join, List.flatMap_map, characters]

/-- What may stand behind a word breaks it off. -/
theorem broken_characters
    (h : Legible true l) :
    Broken l.characters := by
  cases l with
  | nil => rintro c ⟨⟩
  | cons piece l =>
      obtain ⟨c, cs, text, stop⟩ := Piece.exists_break (h.1 rfl)
      have head : (characters (piece :: l)).head? = some c := by
        rw [characters, List.flatMap_cons, text]
        rfl
      intro x hx
      rw [head] at hx
      cases hx
      exact stop

end Layout

namespace Lexeme

theorem scanAll_blanks
    {xs : List Char}
    (blank : ∀ c ∈ xs, isBlank c = true)
    (fuel : Nat)
    (comma : Bool)
    (cs : List Char) :
    scanAll (xs.length + fuel) comma (xs ++ cs) = scanAll fuel comma cs := by
  induction xs with
  | nil => simp
  | cons c xs ih =>
      have hc := blank c List.mem_cons_self
      rw [List.length_cons, Nat.succ_add, List.cons_append, scanAll, if_pos hc]
      exact ih fun x hx => blank x (List.mem_cons_of_mem c hx)

/-- What stands for no token is passed over, and a comma is remembered. -/
theorem scanAll_separator
    {piece : Piece}
    (h : piece.token? = none)
    (fuel : Nat)
    (comma : Bool)
    (cs : List Char) :
    scanAll (piece.text.toList.length + fuel) comma (piece.text.toList ++ cs) =
      scanAll fuel (comma || piece == .comma) cs := by
  cases piece with
  | token t => cases h
  | block level s => cases h
  | space =>
      have one : Piece.space.text.toList = [' '] := rfl
      have blank : ∀ c ∈ Piece.space.text.toList, isBlank c = true := by
        rw [one]
        exact List.forall_mem_singleton.mpr (by decide)
      have other : (Piece.space == Piece.comma) = false := rfl
      rw [scanAll_blanks blank, other, Bool.or_false]
  | comma =>
      have one : Piece.comma.text.toList = [','] := rfl
      rw [one, List.length_singleton, Nat.add_comm]
      simp [scanAll, show isBlank ',' = false by decide]
  | newline level =>
      have blank : ∀ c ∈ (Piece.newline level).text.toList, isBlank c = true := by
        rw [Piece.toList_newline, List.forall_mem_cons]
        refine ⟨by decide, fun c hc => ?_⟩
        rw [Block.mem_margin hc]
        decide
      have other : (Piece.newline level == Piece.comma) = false := rfl
      rw [scanAll_blanks blank, other, Bool.or_false]

theorem scanAll_of_heads
    {t : Token}
    {text rest : List Char}
    (h : t.Heads text rest)
    (fuel : Nat)
    (comma : Bool) :
    scanAll (fuel + 1) comma text = (scanAll fuel false rest).map (⟨t, comma⟩ :: ·) := by
  obtain ⟨c, cs, rfl, blank, comma', comment, one⟩ := h
  simp [scanAll, blank, comma', comment, one]

/-- The characters of a legible layout are cut into its tokens. -/
theorem scanAll_characters
    {l : Layout}
    {behind : Bool}
    (h : l.Legible behind)
    {fuel : Nat}
    (enough : l.characters.length < fuel)
    (comma : Bool) :
    scanAll fuel comma l.characters = some (l.lexemes comma) := by
  induction l generalizing behind fuel comma with
  | nil =>
      cases fuel with
      | zero => cases enough
      | succ fuel => rfl
  | cons piece l ih =>
      obtain ⟨-, writable, rest⟩ := h
      have characters : Layout.characters (piece :: l) = piece.text.toList ++ Layout.characters l := rfl
      rw [characters, List.length_append] at enough
      rw [characters]
      cases token : piece.token? with
      | some t =>
          have nonempty : 0 < piece.text.toList.length := by
            obtain ⟨c, cs, text, -⟩ := Piece.heads_token token writable
              (fun _ => show Broken [] by rintro c ⟨⟩)
            rw [List.append_nil] at text
            simp [text]
          obtain ⟨fuel, rfl⟩ : ∃ k, fuel = k + 1 := ⟨fuel - 1, by omega⟩
          have heads : t.Heads (piece.text.toList ++ Layout.characters l) (Layout.characters l) :=
            Piece.heads_token token writable fun isOpen =>
              Layout.broken_characters (isOpen ▸ rest)
          rw [scanAll_of_heads heads, ih rest (by omega)]
          simp [Layout.lexemes, token]
      | none =>
          obtain ⟨fuel, rfl⟩ : ∃ k, fuel = piece.text.toList.length + k :=
            ⟨fuel - piece.text.toList.length, by omega⟩
          rw [scanAll_separator token, ih rest (by omega)]
          simp [Layout.lexemes, token]

/-- **Tokens are read back.**  The text of a legible layout is cut into the tokens of the
layout. -/
theorem scan_render
    {l : Layout}
    (h : l.Legible false) :
    scan l.render = some (l.lexemes false) := by
  rw [scan, Layout.toList_render]
  exact scanAll_characters h (Nat.lt_succ_self _) false

end Lexeme

end Supergraph
