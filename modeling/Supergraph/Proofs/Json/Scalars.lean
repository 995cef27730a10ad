import Supergraph.Json
import Mathlib.Data.List.Basic

/-!
# Strings and numbers in JSON

What stands between the quotes of a JSON string is a list of parts, and the parts stand for
characters (`SpellsParts`, `Joins`); a number has a whole part and may have a sign, a fraction
and an exponent (`IsNumber`).  The readers take just these texts (`readString_eq_some_iff`,
`readNumber_sound`, `readNumber_append`).

Half of a surrogate pair stands for no character, so a string that has one spells nothing.
-/

namespace Supergraph

namespace Json

/-- A reader that makes something of what another gives leaves the same rest. -/
theorem exists_of_map
    {α β : Type}
    {f : α → β}
    {y : β}
    {rest : List Char}
    {read : Option (α × List Char)}
    (h : (read.map fun (x, r) => (f x, r)) = some (y, rest)) :
    ∃ x, read = some (x, rest) ∧ f x = y := by
  obtain ⟨⟨x, r⟩, read, same⟩ := Option.map_eq_some_iff.mp h
  cases same
  exact ⟨x, read, rfl⟩

section Strings

/-- What may stand behind a backslash, and the character that is meant. -/
def shortEscapes : List (Char × Char) :=
  [('"', '"'), ('\\', '\\'), ('/', '/'), ('b', '\x08'), ('f', '\x0c'), ('n', '\n'), ('r', '\r'),
    ('t', '\t')]

/-- The hexadecimal digits, by their values. -/
def lowerHexDigits : List Char :=
  ['0', '1', '2', '3', '4', '5', '6', '7', '8', '9', 'a', 'b', 'c', 'd', 'e', 'f']

/-- The hexadecimal digits, by their values, with upper-case letters. -/
def upperHexDigits : List Char :=
  ['0', '1', '2', '3', '4', '5', '6', '7', '8', '9', 'A', 'B', 'C', 'D', 'E', 'F']

/-- The character is the hexadecimal digit of this value. -/
def IsHexDigit (c : Char) (n : Nat) : Prop :=
  lowerHexDigits[n]? = some c ∨ upperHexDigits[n]? = some c

/-- The parts that a text between quotes consists of: characters as they stand, those that have
a short escape, and units in four hexadecimal digits. -/
inductive SpellsParts : List Char → List StringPart → Prop
  | nil :
      SpellsParts [] []
  | plain
      {c : Char}
      {cs : List Char}
      {ps : List StringPart}
      (printed : 32 ≤ c.toNat)
      (noQuote : c ≠ '"')
      (noBackslash : c ≠ '\\')
      (rest : SpellsParts cs ps) :
      SpellsParts (c :: cs) (.char c :: ps)
  | escape
      {e x : Char}
      {cs : List Char}
      {ps : List StringPart}
      (short : (e, x) ∈ shortEscapes)
      (rest : SpellsParts cs ps) :
      SpellsParts ('\\' :: e :: cs) (.char x :: ps)
  | unit
      {a b c d : Char}
      {i j k l : Nat}
      {cs : List Char}
      {ps : List StringPart}
      (first : IsHexDigit a i)
      (second : IsHexDigit b j)
      (third : IsHexDigit c k)
      (fourth : IsHexDigit d l)
      (rest : SpellsParts cs ps) :
      SpellsParts ('\\' :: 'u' :: a :: b :: c :: d :: cs)
        (.unit (((i * 16 + j) * 16 + k) * 16 + l) :: ps)

/-- The characters that parts stand for.  A unit is the code point of a character, or two of
them are a surrogate pair. -/
inductive Joins : List StringPart → List Char → Prop
  | nil :
      Joins [] []
  | char
      {x : Char}
      {ps : List StringPart}
      {xs : List Char}
      (rest : Joins ps xs) :
      Joins (.char x :: ps) (x :: xs)
  | unit
      {x : Char}
      {ps : List StringPart}
      {xs : List Char}
      (rest : Joins ps xs) :
      Joins (.unit x.toNat :: ps) (x :: xs)
  | pair
      {high low : Nat}
      {x : Char}
      {ps : List StringPart}
      {xs : List Char}
      (isHigh : 0xd800 ≤ high ∧ high < 0xdc00)
      (isLow : 0xdc00 ≤ low ∧ low < 0xe000)
      (point : x.toNat = 0x10000 + (high - 0xd800) * 0x400 + (low - 0xdc00))
      (rest : Joins ps xs) :
      Joins (.unit high :: .unit low :: ps) (x :: xs)

/-- The text between quotes spells these characters. -/
def SpellsString (cs xs : List Char) : Prop :=
  ∃ ps, SpellsParts cs ps ∧ Joins ps xs

theorem unescape?_eq_some_iff
    {e x : Char} :
    Quoted.unescape? e = some x ↔ (e, x) ∈ shortEscapes := by
  constructor
  · intro h
    unfold Quoted.unescape? at h
    repeat' split at h
    all_goals cases h
    all_goals
      subst e
      decide
  · have written : ∀ p ∈ shortEscapes, Quoted.unescape? p.1 = some p.2 := by decide
    exact written (e, x)

/-- Where a row of characters is listed from some place on, one of the row stands at its distance
from the first. -/
theorem getElem?_of_le
    {a b c : Char}
    {ds : List Char}
    {k : Nat}
    (row : ∀ i ≤ b.toNat - a.toNat, ds[i + k]? = some (Char.ofNat (a.toNat + i)))
    (h : a ≤ c ∧ c ≤ b) :
    ds[c.toNat - a.toNat + k]? = some c := by
  have low : a.toNat ≤ c.toNat := h.1
  have high : c.toNat ≤ b.toNat := h.2
  rw [row _ (Nat.sub_le_sub_right high _), Nat.add_sub_of_le low, Char.ofNat_toNat]

theorem hexValue?_eq_some_iff
    {c : Char}
    {n : Nat} :
    Quoted.hexValue? c = some n ↔ IsHexDigit c n := by
  constructor
  · intro h
    unfold Quoted.hexValue? at h
    split at h
    · rename_i digit
      cases h
      exact Or.inl (getElem?_of_le (k := 0) (by decide) digit)
    · split at h
      · rename_i letter
        cases h
        exact Or.inl (getElem?_of_le (by decide) letter)
      · obtain ⟨letter, same⟩ := Option.ite_none_right_eq_some.mp h
        cases same
        exact Or.inr (getElem?_of_le (by decide) letter)
  · have values : ∀ ds ∈ [lowerHexDigits, upperHexDigits], ∀ i < ds.length,
        ds[i]?.bind Quoted.hexValue? = some i := by
      decide
    rintro (digit | digit)
    · have value := values lowerHexDigits (by simp) n (List.getElem?_eq_some_iff.mp digit).1
      rwa [digit] at value
    · have value := values upperHexDigits (by simp) n (List.getElem?_eq_some_iff.mp digit).1
      rwa [digit] at value

theorem unit?_eq_some_iff
    {a b c d : Char}
    {n : Nat} :
    Quoted.unit? a b c d = some n ↔
      ∃ i j k l, IsHexDigit a i ∧ IsHexDigit b j ∧ IsHexDigit c k ∧ IsHexDigit d l ∧
        n = ((i * 16 + j) * 16 + k) * 16 + l := by
  simp only [← hexValue?_eq_some_iff]
  unfold Quoted.unit?
  grind

theorem codePoint?_eq_some_iff
    {n : Nat}
    {x : Char} :
    Quoted.codePoint? n = some x ↔ x.toNat = n := by
  unfold Quoted.codePoint?
  split
  · rename_i valid
    rw [Option.some.injEq]
    constructor
    · rintro rfl
      rw [Char.ofNat, dif_pos valid]
      rfl
    · rintro rfl
      exact Char.ofNat_toNat x
  · rename_i invalid
    simp only [reduceCtorEq, false_iff]
    rintro rfl
    exact invalid x.valid

theorem pair?_eq_some_iff
    {high low : Nat}
    {x : Char} :
    Quoted.pair? high low = some x ↔
      (0xd800 ≤ high ∧ high < 0xdc00) ∧ (0xdc00 ≤ low ∧ low < 0xe000) ∧
        x.toNat = 0x10000 + (high - 0xd800) * 0x400 + (low - 0xdc00) := by
  unfold Quoted.pair?
  split
  · rw [codePoint?_eq_some_iff]
    omega
  · refine iff_of_false nofun ?_
    omega

/-- The code point of a character is no half of a pair. -/
theorem pair?_toNat
    (x : Char)
    (low : Nat) :
    Quoted.pair? x.toNat low = none := by
  cases pair : Quoted.pair? x.toNat low with
  | none => rfl
  | some y =>
      obtain ⟨isHigh, -⟩ := pair?_eq_some_iff.mp pair
      have valid : x.toNat < 0xd800 ∨ 0xdfff < x.toNat ∧ x.toNat < 0x110000 := x.valid
      omega

theorem joinParts_sound
    {ps : List StringPart}
    {xs : List Char}
    (h : joinParts ps = some xs) :
    Joins ps xs := by
  fun_induction joinParts ps generalizing xs with
  | case1 =>
      cases h
      exact .nil
  | case2 c ps ih =>
      obtain ⟨ys, joined, rfl⟩ := Option.map_eq_some_iff.mp h
      exact .char (ih joined)
  | case3 high low ps x pair ih =>
      obtain ⟨ys, joined, rfl⟩ := Option.map_eq_some_iff.mp h
      obtain ⟨isHigh, isLow, point⟩ := pair?_eq_some_iff.mp pair
      exact .pair isHigh isLow point (ih joined)
  | case4 high low ps single x ys joined point ih =>
      cases h
      obtain rfl := codePoint?_eq_some_iff.mp point
      exact .unit (ih joined)
  | case5 => cases h
  | case6 n ps alone x ys joined point ih =>
      cases h
      obtain rfl := codePoint?_eq_some_iff.mp point
      exact .unit (ih joined)
  | case7 => cases h

theorem joinParts_of_joins
    {ps : List StringPart}
    {xs : List Char}
    (h : Joins ps xs) :
    joinParts ps = some xs := by
  induction h with
  | nil => rfl
  | char _ ih => simp [joinParts, ih]
  | @unit x ps xs _ ih =>
      have point : Quoted.codePoint? x.toNat = some x := codePoint?_eq_some_iff.mpr rfl
      match ps with
      | .unit low :: ps => rw [joinParts, pair?_toNat, point, ih]
      | .char c :: ps =>
          rw [joinParts, point, ih]
          exact fun _ _ => nofun
      | [] =>
          rw [joinParts, point, ih]
          exact fun _ _ => nofun
  | pair isHigh isLow point _ ih =>
      simp [joinParts, pair?_eq_some_iff.mpr ⟨isHigh, isLow, point⟩, ih]

theorem readParts_sound
    {cs rest : List Char}
    {ps : List StringPart}
    (h : readParts cs = some (ps, rest)) :
    ∃ t, SpellsParts t ps ∧ cs = t ++ '"' :: rest := by
  fun_induction readParts cs generalizing ps with
  | case1 => cases h
  | case2 =>
      cases h
      exact ⟨[], .nil, rfl⟩
  | case3 a b c d cs n ps r read digits ih =>
      cases h
      obtain ⟨t, spelled, rfl⟩ := ih read
      obtain ⟨i, j, k, l, first, second, third, fourth, rfl⟩ := unit?_eq_some_iff.mp digits
      exact ⟨_, .unit first second third fourth spelled, rfl⟩
  | case4 => cases h
  | case5 e cs noUnit x ps r read short ih =>
      cases h
      obtain ⟨t, spelled, rfl⟩ := ih read
      exact ⟨_, .escape (unescape?_eq_some_iff.mp short) spelled, rfl⟩
  | case6 => cases h
  | case7 => cases h
  | case8 c cs noQuote _ _ plain ih =>
      obtain ⟨qs, read, rfl⟩ := exists_of_map (f := (StringPart.char c :: ·)) h
      obtain ⟨t, spelled, rfl⟩ := ih read
      rw [not_or, Nat.not_lt] at plain
      exact ⟨_, .plain plain.1 noQuote plain.2 spelled, rfl⟩

theorem readParts_append
    {t : List Char}
    {ps : List StringPart}
    (h : SpellsParts t ps)
    (rest : List Char) :
    readParts (t ++ '"' :: rest) = some (ps, rest) := by
  induction h with
  | nil => rfl
  | @plain c cs ps printed noQuote noBackslash _ ih =>
      have plain : ¬ (c.toNat < 32 ∨ c = '\\') := not_or.mpr ⟨Nat.not_lt.mpr printed, noBackslash⟩
      rw [List.cons_append, readParts, if_neg plain, ih]
      · rfl
      exacts [noQuote, fun _ _ _ _ _ h _ => noBackslash h, fun _ _ h _ => noBackslash h]
  | @escape e x cs ps short _ ih =>
      have noUnit : e ≠ 'u' := by
        rintro rfl
        cases unescape?_eq_some_iff.mpr short
      rw [List.cons_append, List.cons_append, readParts, unescape?_eq_some_iff.mpr short, ih]
      exact fun _ _ _ _ _ h _ => noUnit h
  | unit first second third fourth _ ih =>
      have digits := unit?_eq_some_iff.mpr ⟨_, _, _, _, first, second, third, fourth, rfl⟩
      simp [readParts, digits, ih]

theorem readString_eq_some_iff
    {cs rest xs : List Char} :
    readString cs = some (xs, rest) ↔ ∃ t, SpellsString t xs ∧ cs = t ++ '"' :: rest := by
  unfold readString
  constructor
  · intro h
    split at h
    · rename_i ps r read
      obtain ⟨ys, joined, same⟩ := Option.map_eq_some_iff.mp h
      cases same
      obtain ⟨t, spelled, rfl⟩ := readParts_sound read
      exact ⟨t, ⟨ps, spelled, joinParts_sound joined⟩, rfl⟩
    · cases h
  · rintro ⟨t, ⟨ps, spelled, joins⟩, rfl⟩
    simp [readParts_append spelled, joinParts_of_joins joins]

end Strings

section Numbers

/-- One decimal digit or more. -/
def IsDigits (cs : List Char) : Prop :=
  cs ≠ [] ∧ ∀ c ∈ cs, c.isDigit = true

/-- The whole part of a number has no leading zero. -/
inductive IsWhole : List Char → Prop
  | zero :
      IsWhole ['0']
  | digits
      {cs : List Char}
      (digits : IsDigits cs)
      (first : cs.head? ≠ some '0') :
      IsWhole cs

/-- The fraction of a number, if it has one. -/
inductive IsFraction : List Char → Prop
  | none :
      IsFraction []
  | digits
      {cs : List Char}
      (digits : IsDigits cs) :
      IsFraction ('.' :: cs)

/-- The exponent of a number, if it has one. -/
inductive IsExponent : List Char → Prop
  | none :
      IsExponent []
  | digits
      {e : Char}
      {sign cs : List Char}
      (letter : e = 'e' ∨ e = 'E')
      (signed : sign = [] ∨ sign = ['+'] ∨ sign = ['-'])
      (digits : IsDigits cs) :
      IsExponent (e :: (sign ++ cs))

/-- The text is a number. -/
inductive IsNumber : List Char → Prop
  | parts
      {sign whole fraction exponent : List Char}
      (signed : sign = [] ∨ sign = ['-'])
      (isWhole : IsWhole whole)
      (isFraction : IsFraction fraction)
      (isExponent : IsExponent exponent) :
      IsNumber (sign ++ (whole ++ (fraction ++ exponent)))

/-- The sign of a number, if it has one, and the rest. -/
def readSign : List Char → List Char × List Char
  | '-' :: cs => (['-'], cs)
  | cs => ([], cs)

/-- The character may continue a number. -/
def continuesNumber (c : Char) : Bool :=
  c.isDigit || c == '.' || c == 'e' || c == 'E'

/-- A number in front of this text ends there. -/
def EndsNumber (rest : List Char) : Prop :=
  ∀ c ∈ rest.head?, continuesNumber c = false

variable {cs t rest : List Char}

section Sound

theorem readDigits_sound
    (h : readDigits cs = some (t, rest)) :
    IsDigits t ∧ cs = t ++ rest := by
  unfold readDigits at h
  split at h
  · cases h
  · rename_i some
    cases h
    exact ⟨⟨some, fun c hc => List.all_eq_true.mp List.all_takeWhile c hc⟩,
      List.takeWhile_append_dropWhile.symm⟩

theorem readWhole_sound
    (h : readWhole cs = some (t, rest)) :
    IsWhole t ∧ cs = t ++ rest := by
  unfold readWhole at h
  split at h
  · cases h
    exact ⟨.zero, rfl⟩
  · rename_i noZero
    obtain ⟨digits, rfl⟩ := readDigits_sound h
    refine ⟨.digits digits fun zero => ?_, rfl⟩
    obtain ⟨ds, rfl⟩ := List.head?_eq_some_iff.mp zero
    exact noZero _ rfl

theorem readFraction_sound
    (h : readFraction cs = some (t, rest)) :
    IsFraction t ∧ cs = t ++ rest := by
  unfold readFraction at h
  split at h
  · obtain ⟨ds, read, rfl⟩ := exists_of_map (f := ('.' :: ·)) h
    obtain ⟨digits, rfl⟩ := readDigits_sound read
    exact ⟨.digits digits, rfl⟩
  · cases h
    exact ⟨.none, rfl⟩

theorem readExponent_sound
    (h : readExponent cs = some (t, rest)) :
    IsExponent t ∧ cs = t ++ rest := by
  unfold readExponent at h
  split at h
  · split at h
    · rename_i e _ letter
      split at h
      · obtain ⟨ds, read, rfl⟩ := exists_of_map (f := (e :: '+' :: ·)) h
        obtain ⟨digits, rfl⟩ := readDigits_sound read
        exact ⟨.digits letter (Or.inr (Or.inl rfl)) digits, rfl⟩
      · obtain ⟨ds, read, rfl⟩ := exists_of_map (f := (e :: '-' :: ·)) h
        obtain ⟨digits, rfl⟩ := readDigits_sound read
        exact ⟨.digits letter (Or.inr (Or.inr rfl)) digits, rfl⟩
      · obtain ⟨ds, read, rfl⟩ := exists_of_map (f := (e :: ·)) h
        obtain ⟨digits, rfl⟩ := readDigits_sound read
        exact ⟨.digits letter (Or.inl rfl) digits, rfl⟩
    · cases h
      exact ⟨.none, rfl⟩
  · cases h
    exact ⟨.none, rfl⟩

theorem readSign_sound
    (cs : List Char) :
    ((readSign cs).1 = [] ∨ (readSign cs).1 = ['-']) ∧
      cs = (readSign cs).1 ++ (readSign cs).2 := by
  unfold readSign
  split
  · exact ⟨Or.inr rfl, rfl⟩
  · exact ⟨Or.inl rfl, rfl⟩

theorem readNumber_eq_some_iff :
    readNumber cs = some (t, rest) ↔
      ∃ whole u fraction v exponent,
        readWhole (readSign cs).2 = some (whole, u) ∧ readFraction u = some (fraction, v) ∧
          readExponent v = some (exponent, rest) ∧
            t = (readSign cs).1 ++ (whole ++ (fraction ++ exponent)) := by
  have steps : readNumber cs = do
      let whole ← readWhole (readSign cs).2
      let fraction ← readFraction whole.2
      let exponent ← readExponent fraction.2
      return ((readSign cs).1 ++ whole.1 ++ fraction.1 ++ exponent.1, exponent.2) := rfl
  rw [steps]
  simp only [Option.bind_eq_bind, Option.bind_eq_some_iff, Option.pure_def, Option.some.injEq,
    Prod.mk.injEq, Prod.exists, List.append_assoc]
  constructor
  · rintro ⟨whole, u, hwhole, fraction, v, hfraction, exponent, w, hexponent, rfl, rfl⟩
    exact ⟨whole, u, fraction, v, exponent, hwhole, hfraction, hexponent, rfl⟩
  · rintro ⟨whole, u, fraction, v, exponent, hwhole, hfraction, hexponent, rfl⟩
    exact ⟨whole, u, hwhole, fraction, v, hfraction, exponent, rest, hexponent, rfl, rfl⟩

theorem readNumber_sound
    (h : readNumber cs = some (t, rest)) :
    IsNumber t ∧ cs = t ++ rest := by
  obtain ⟨whole, u, fraction, v, exponent, readsWhole, readsFraction, readsExponent, rfl⟩ :=
    readNumber_eq_some_iff.mp h
  obtain ⟨signed, signs⟩ := readSign_sound cs
  obtain ⟨isWhole, wholes⟩ := readWhole_sound readsWhole
  obtain ⟨isFraction, rfl⟩ := readFraction_sound readsFraction
  obtain ⟨isExponent, rfl⟩ := readExponent_sound readsExponent
  refine ⟨.parts signed isWhole isFraction isExponent, signs.trans ?_⟩
  rw [wholes]
  simp only [List.append_assoc]

end Sound

section Complete

theorem IsDigits.isDigit_of_append
    (h : IsDigits t)
    {c : Char}
    {us : List Char}
    (split : t ++ rest = c :: us) :
    c.isDigit = true := by
  obtain ⟨d, ds, rfl⟩ := List.exists_cons_of_ne_nil h.1
  obtain ⟨rfl, -⟩ := List.cons.inj split
  exact h.2 d List.mem_cons_self

theorem readDigits_append
    (h : IsDigits t)
    (ends : ∀ c ∈ rest.head?, c.isDigit = false) :
    readDigits (t ++ rest) = some (t, rest) := by
  have stop : rest.takeWhile Char.isDigit = [] ∧ rest.dropWhile Char.isDigit = rest := by
    cases rest with
    | nil => exact ⟨rfl, rfl⟩
    | cons c cs => simp [ends c rfl]
  rw [readDigits, List.takeWhile_append_of_pos h.2, List.dropWhile_append_of_pos h.2, stop.1,
    stop.2, List.append_nil]
  obtain ⟨c, cs, rfl⟩ := List.exists_cons_of_ne_nil h.1
  rfl

theorem readWhole_append
    (h : IsWhole t)
    (ends : ∀ c ∈ rest.head?, c.isDigit = false) :
    readWhole (t ++ rest) = some (t, rest) := by
  cases h with
  | zero => rfl
  | digits digits first =>
      rw [← readDigits_append digits ends, readWhole]
      intro cs split
      obtain ⟨c, ds, rfl⟩ := List.exists_cons_of_ne_nil digits.1
      obtain ⟨rfl, -⟩ := List.cons.inj split
      exact first rfl

theorem readFraction_append
    (h : IsFraction t)
    (ends : ∀ c ∈ rest.head?, c.isDigit = false ∧ c ≠ '.') :
    readFraction (t ++ rest) = some (t, rest) := by
  cases h with
  | none =>
      rw [List.nil_append, readFraction]
      rintro cs rfl
      exact (ends '.' rfl).2 rfl
  | digits digits =>
      rw [List.cons_append, readFraction, readDigits_append digits fun c hc => (ends c hc).1]
      rfl

theorem readExponent_append
    (h : IsExponent t)
    (ends : ∀ c ∈ rest.head?, c.isDigit = false ∧ c ≠ 'e' ∧ c ≠ 'E') :
    readExponent (t ++ rest) = some (t, rest) := by
  cases h with
  | none =>
      cases rest with
      | nil => rfl
      | cons c cs =>
          have other : ¬ (c = 'e' ∨ c = 'E') := not_or.mpr (ends c rfl).2
          unfold readExponent
          exact if_neg other
  | @digits e sign ds letter signed digits =>
      have read := readDigits_append digits fun c hc => (ends c hc).1
      rcases signed with rfl | rfl | rfl
      · rw [List.nil_append, List.cons_append, readExponent, if_pos letter, read]
        · rfl
        · intro us split
          cases digits.isDigit_of_append split
        · intro us split
          cases digits.isDigit_of_append split
      · simp [readExponent, letter, read]
      · simp [readExponent, letter, read]

theorem continuesNumber_eq_false_iff
    {c : Char} :
    continuesNumber c = false ↔ c.isDigit = false ∧ c ≠ '.' ∧ c ≠ 'e' ∧ c ≠ 'E' := by
  simp [continuesNumber, and_assoc]

/-- An exponent begins with a letter. -/
theorem EndsNumber.exponent
    (ends : EndsNumber rest)
    (h : IsExponent t) :
    ∀ c ∈ (t ++ rest).head?, c.isDigit = false ∧ c ≠ '.' := by
  cases h with
  | none =>
      intro c hc
      obtain ⟨noDigit, noPoint, -⟩ := continuesNumber_eq_false_iff.mp (ends c hc)
      exact ⟨noDigit, noPoint⟩
  | digits letter _ _ =>
      rintro c ⟨rfl⟩
      rcases letter with rfl | rfl <;> decide

/-- A fraction begins with a point. -/
theorem isDigit_of_isFraction
    {u : List Char}
    (h : IsFraction t)
    (ends : ∀ c ∈ u.head?, c.isDigit = false) :
    ∀ c ∈ (t ++ u).head?, c.isDigit = false := by
  cases h with
  | none => exact ends
  | digits _ =>
      rintro c ⟨rfl⟩
      decide

theorem readSign_append
    {sign whole u : List Char}
    (signed : sign = [] ∨ sign = ['-'])
    (h : IsWhole whole) :
    readSign (sign ++ (whole ++ u)) = (sign, whole ++ u) := by
  rcases signed with rfl | rfl
  · rw [List.nil_append, readSign]
    intro cs split
    cases h with
    | zero => cases split
    | digits digits _ => cases digits.isDigit_of_append split
  · rfl

theorem readNumber_append
    (h : IsNumber t)
    (ends : EndsNumber rest) :
    readNumber (t ++ rest) = some (t, rest) := by
  obtain ⟨signed, isWhole, isFraction, isExponent⟩ := h
  rename_i sign whole fraction exponent
  have afterFraction := ends.exponent isExponent
  have afterWhole := isDigit_of_isFraction isFraction fun c hc => (afterFraction c hc).1
  have split : sign ++ (whole ++ (fraction ++ exponent)) ++ rest =
      sign ++ (whole ++ (fraction ++ (exponent ++ rest))) := by
    simp only [List.append_assoc]
  rw [split, readNumber_eq_some_iff, readSign_append signed isWhole]
  refine ⟨whole, _, fraction, _, exponent, readWhole_append isWhole afterWhole,
    readFraction_append isFraction afterFraction,
    readExponent_append isExponent fun c hc => ?_, rfl⟩
  obtain ⟨noDigit, -, noLetter⟩ := continuesNumber_eq_false_iff.mp (ends c hc)
  exact ⟨noDigit, noLetter⟩

end Complete

end Numbers

end Json

end Supergraph
