import Supergraph.Proofs.Json.Scalars
import Mathlib.Data.List.TakeWhile

/-!
# JSON texts are read exactly

A grammar of JSON (`Spells`, `SpelledBy`) that says nothing about reading, and the reader
against it: the reader gives just the data that a text is spelled for (`parse?_eq_some_iff`).
So a text is spelled for one datum at most.

Both directions go by induction on the fuel, for data, items and entries at once.  A text of
`n` characters needs fuel `2 * n - 1`, and items or entries of `n` characters need `2 * n`.
-/

namespace Supergraph

namespace Json

section Grammar

/-- Nothing but white space. -/
def IsBlank (cs : List Char) : Prop :=
  ∀ c ∈ cs, c ∈ [' ', '\t', '\n', '\r']

mutual

/-- The text, with no white space around it, spells the data. -/
inductive Spells : List Char → Json → Prop
  | null :
      Spells ['n', 'u', 'l', 'l'] .null
  | true :
      Spells ['t', 'r', 'u', 'e'] (.boolean true)
  | false :
      Spells ['f', 'a', 'l', 's', 'e'] (.boolean false)
  | number
      {cs : List Char}
      (isNumber : IsNumber cs) :
      Spells cs (.number (String.ofList cs))
  | string
      {cs xs : List Char}
      (spelled : SpellsString cs xs) :
      Spells ('"' :: cs ++ ['"']) (.string (String.ofList xs))
  | emptyArray
      {u : List Char}
      (blank : IsBlank u) :
      Spells ('[' :: u ++ [']']) (.array [])
  | array
      {cs : List Char}
      {items : List Json}
      (spelled : SpellsItems cs items) :
      Spells ('[' :: cs ++ [']']) (.array items)
  | emptyObject
      {u : List Char}
      (blank : IsBlank u) :
      Spells ('{' :: u ++ ['}']) (.object [])
  | object
      {cs : List Char}
      {entries : List (String × Json)}
      (spelled : SpellsEntries cs entries) :
      Spells ('{' :: cs ++ ['}']) (.object entries)

/-- The text spells the items of an array, with commas between them. -/
inductive SpellsItems : List Char → List Json → Prop
  | last
      {u t v : List Char}
      {x : Json}
      (before : IsBlank u)
      (item : Spells t x)
      (behind : IsBlank v) :
      SpellsItems (u ++ (t ++ v)) [x]
  | more
      {u t v cs : List Char}
      {x : Json}
      {xs : List Json}
      (before : IsBlank u)
      (item : Spells t x)
      (behind : IsBlank v)
      (rest : SpellsItems cs xs) :
      SpellsItems (u ++ (t ++ (v ++ ',' :: cs))) (x :: xs)

/-- The text spells an entry of an object: its key in quotes, a colon and its value. -/
inductive SpellsEntry : List Char → String × Json → Prop
  | entry
      {ks v w t keys : List Char}
      {x : Json}
      (key : SpellsString ks keys)
      (behindKey : IsBlank v)
      (behindColon : IsBlank w)
      (value : Spells t x) :
      SpellsEntry ('"' :: (ks ++ '"' :: (v ++ ':' :: (w ++ t)))) (String.ofList keys, x)

/-- The text spells the entries of an object, with commas between them. -/
inductive SpellsEntries : List Char → List (String × Json) → Prop
  | last
      {u t v : List Char}
      {e : String × Json}
      (before : IsBlank u)
      (entry : SpellsEntry t e)
      (behind : IsBlank v) :
      SpellsEntries (u ++ (t ++ v)) [e]
  | more
      {u t v cs : List Char}
      {e : String × Json}
      {es : List (String × Json)}
      (before : IsBlank u)
      (entry : SpellsEntry t e)
      (behind : IsBlank v)
      (rest : SpellsEntries cs es) :
      SpellsEntries (u ++ (t ++ (v ++ ',' :: cs))) (e :: es)

end

/-- The text spells the data, with white space around it. -/
def SpelledBy (j : Json) (s : String) : Prop :=
  ∃ u t v, s.toList = u ++ (t ++ v) ∧ IsBlank u ∧ Spells t j ∧ IsBlank v

end Grammar

section Space

variable {u cs rest : List Char}

theorem isSpace_iff
    {c : Char} :
    isSpace c = true ↔ c ∈ [' ', '\t', '\n', '\r'] := by
  simp [isSpace, or_assoc]

theorem skipSpace_append
    (h : IsBlank u)
    (cs : List Char) :
    skipSpace (u ++ cs) = skipSpace cs :=
  List.dropWhile_append_of_pos fun c hc => isSpace_iff.mpr (h c hc)

theorem skipSpace_cons
    {c : Char}
    (h : isSpace c = false)
    (cs : List Char) :
    skipSpace (c :: cs) = c :: cs := by
  simp [skipSpace, h]

/-- What is skipped is white space. -/
theorem exists_blank_append_skipSpace
    (cs : List Char) :
    ∃ u, IsBlank u ∧ cs = u ++ skipSpace cs :=
  ⟨cs.takeWhile isSpace, fun c hc => isSpace_iff.mp (List.all_eq_true.mp List.all_takeWhile c hc),
    List.takeWhile_append_dropWhile.symm⟩

theorem skipSpace_eq_nil_iff :
    skipSpace cs = [] ↔ IsBlank cs := by
  simp only [skipSpace, List.dropWhile_eq_nil_iff, isSpace_iff, IsBlank]

end Space

section Steps

theorem after?_eq_some_iff
    {ws cs rest : List Char} :
    after? ws cs = some rest ↔ cs = ws ++ rest := by
  induction ws generalizing cs with
  | nil => simp [after?]
  | cons w ws ih =>
      cases cs with
      | nil => simp [after?]
      | cons c cs =>
          by_cases same : w = c
          · simp [after?, same, ih]
          · simp [after?, same, Ne.symm same]

/-- Reads an entry of an object: the entry and the rest. -/
def readEntry (fuel : Nat) (cs : List Char) : Option ((String × Json) × List Char) :=
  match skipSpace cs with
  | '"' :: rest =>
      match readString rest with
      | none => none
      | some (k, rest) =>
          match skipSpace rest with
          | ':' :: rest => (readValue fuel rest).map fun (v, r) => ((String.ofList k, v), r)
          | _ => none
  | _ => none

/-- Entries are read one after another, as items are. -/
theorem readEntries_succ
    (fuel : Nat)
    (cs : List Char) :
    readEntries (fuel + 1) cs =
      match readEntry fuel cs with
      | none => none
      | some (e, rest) =>
          match skipSpace rest with
          | '}' :: rest => some ([e], rest)
          | ',' :: rest => (readEntries fuel rest).map fun (es, r) => (e :: es, r)
          | _ => none := by
  rw [readEntries, readEntry]
  rcases skipSpace cs with _ | ⟨c, r⟩
  · rfl
  · by_cases quote : c = '"'
    · subst quote
      simp only
      rcases readString r with _ | ⟨k, q⟩
      · rfl
      · simp only
        rcases skipSpace q with _ | ⟨d, q⟩
        · rfl
        · by_cases colon : d = ':'
          · subst colon
            simp only
            cases readValue fuel q <;> rfl
          · simp [colon]
    · simp [quote]

theorem eq_of_map_after?
    {ws cs rest : List Char}
    {j j' : Json}
    (h : ((after? ws cs).map fun r => (j, r)) = some (j', rest)) :
    j = j' ∧ cs = ws ++ rest := by
  obtain ⟨r, word, same⟩ := Option.map_eq_some_iff.mp h
  cases same
  exact ⟨rfl, after?_eq_some_iff.mp word⟩

variable {u : List Char}

theorem readValue_blank_append
    (blank : IsBlank u)
    (fuel : Nat)
    (cs : List Char) :
    readValue fuel (u ++ cs) = readValue fuel cs := by
  cases fuel with
  | zero => rfl
  | succ fuel => rw [readValue, readValue, skipSpace_append blank]

theorem readEntry_blank_append
    (blank : IsBlank u)
    (fuel : Nat)
    (cs : List Char) :
    readEntry fuel (u ++ cs) = readEntry fuel cs := by
  rw [readEntry, readEntry, skipSpace_append blank]

theorem readItems_blank_append
    (blank : IsBlank u)
    (fuel : Nat)
    (cs : List Char) :
    readItems fuel (u ++ cs) = readItems fuel cs := by
  cases fuel with
  | zero => rfl
  | succ fuel => rw [readItems, readItems, readValue_blank_append blank]

theorem readEntries_blank_append
    (blank : IsBlank u)
    (fuel : Nat)
    (cs : List Char) :
    readEntries fuel (u ++ cs) = readEntries fuel cs := by
  cases fuel with
  | zero => rfl
  | succ fuel => rw [readEntries_succ, readEntries_succ, readEntry_blank_append blank]

theorem readItems_skipSpace
    (fuel : Nat)
    (cs : List Char) :
    readItems fuel (skipSpace cs) = readItems fuel cs := by
  obtain ⟨u, blank, split⟩ := exists_blank_append_skipSpace cs
  rw [← readItems_blank_append blank, ← split]

theorem readEntries_skipSpace
    (fuel : Nat)
    (cs : List Char) :
    readEntries fuel (skipSpace cs) = readEntries fuel cs := by
  obtain ⟨u, blank, split⟩ := exists_blank_append_skipSpace cs
  rw [← readEntries_blank_append blank, ← split]

end Steps

section Sound

/-- What a reader of data gives is what the text in front of the rest spells. -/
def SoundWithin (fuel : Nat) : Prop :=
  (∀ cs j rest, readValue fuel cs = some (j, rest) →
      ∃ u t, IsBlank u ∧ Spells t j ∧ cs = u ++ (t ++ rest)) ∧
    (∀ cs xs rest, readItems fuel cs = some (xs, rest) →
      ∃ t, SpellsItems t xs ∧ cs = t ++ ']' :: rest) ∧
    ∀ cs es rest, readEntries fuel cs = some (es, rest) →
      ∃ t, SpellsEntries t es ∧ cs = t ++ '}' :: rest

/-- The text in front of the rest, once white space has been skipped. -/
theorem readValue_sound
    {fuel : Nat}
    (within : SoundWithin fuel)
    {cs rest : List Char}
    {j : Json}
    (h : readValue (fuel + 1) cs = some (j, rest)) :
    ∃ t, Spells t j ∧ skipSpace cs = t ++ rest := by
  obtain ⟨-, items, entries⟩ := within
  rw [readValue] at h
  split at h <;> rename_i r head
  · obtain ⟨xs, read, rfl⟩ := exists_of_map (f := fun xs => Json.string (String.ofList xs)) h
    obtain ⟨t, spelled, rfl⟩ := readString_eq_some_iff.mp read
    exact ⟨_, .string spelled, head.trans (by simp)⟩
  · obtain ⟨u, blank, split⟩ := exists_blank_append_skipSpace r
    rw [head]
    split at h
    · rename_i r' closed
      cases h
      rw [closed] at split
      exact ⟨_, .emptyArray blank, by simp [split]⟩
    · rw [readItems_skipSpace] at h
      obtain ⟨xs, read, rfl⟩ := exists_of_map h
      obtain ⟨t, spelled, rfl⟩ := items _ _ _ read
      exact ⟨_, .array spelled, by simp⟩
  · obtain ⟨u, blank, split⟩ := exists_blank_append_skipSpace r
    rw [head]
    split at h
    · rename_i r' closed
      cases h
      rw [closed] at split
      exact ⟨_, .emptyObject blank, by simp [split]⟩
    · rw [readEntries_skipSpace] at h
      obtain ⟨es, read, rfl⟩ := exists_of_map h
      obtain ⟨t, spelled, rfl⟩ := entries _ _ _ read
      exact ⟨_, .object spelled, by simp⟩
  · obtain ⟨rfl, rfl⟩ := eq_of_map_after? h
    exact ⟨_, .null, head⟩
  · obtain ⟨rfl, rfl⟩ := eq_of_map_after? h
    exact ⟨_, .true, head⟩
  · obtain ⟨rfl, rfl⟩ := eq_of_map_after? h
    exact ⟨_, .false, head⟩
  · obtain ⟨xs, read, rfl⟩ := exists_of_map (f := fun xs => Json.number (String.ofList xs)) h
    obtain ⟨isNumber, split⟩ := readNumber_sound read
    exact ⟨_, .number isNumber, split⟩

theorem readItems_sound
    {fuel : Nat}
    (within : SoundWithin fuel)
    {cs rest : List Char}
    {xs : List Json}
    (h : readItems (fuel + 1) cs = some (xs, rest)) :
    ∃ t, SpellsItems t xs ∧ cs = t ++ ']' :: rest := by
  obtain ⟨values, items, -⟩ := within
  rw [readItems] at h
  split at h
  · cases h
  · rename_i x r read
    obtain ⟨u, t, before, spelled, rfl⟩ := values _ _ _ read
    obtain ⟨v, behind, split⟩ := exists_blank_append_skipSpace r
    split at h
    · rename_i r' closed
      cases h
      rw [closed] at split
      exact ⟨_, .last before spelled behind, by simp [split]⟩
    · rename_i r' separated
      obtain ⟨ys, readRest, rfl⟩ := exists_of_map h
      obtain ⟨ts, spelledRest, rfl⟩ := items _ _ _ readRest
      rw [separated] at split
      exact ⟨_, .more before spelled behind spelledRest, by simp [split]⟩
    · cases h

theorem readEntry_sound
    {fuel : Nat}
    (within : SoundWithin fuel)
    {cs rest : List Char}
    {e : String × Json}
    (h : readEntry fuel cs = some (e, rest)) :
    ∃ u t, IsBlank u ∧ SpellsEntry t e ∧ cs = u ++ (t ++ rest) := by
  rw [readEntry] at h
  obtain ⟨u, before, split⟩ := exists_blank_append_skipSpace cs
  split at h
  · rename_i r quote
    split at h
    · cases h
    · rename_i keys r readKey
      obtain ⟨ks, key, rfl⟩ := readString_eq_some_iff.mp readKey
      obtain ⟨v, behindKey, splitKey⟩ := exists_blank_append_skipSpace r
      split at h
      · rename_i r' colon
        obtain ⟨x, read, rfl⟩ := exists_of_map h
        obtain ⟨w, t, behindColon, value, rfl⟩ := within.1 _ _ _ read
        rw [quote] at split
        rw [colon] at splitKey
        exact ⟨u, _, before, .entry key behindKey behindColon value, by simp [split, splitKey]⟩
      · cases h
  · cases h

theorem readEntries_sound
    {fuel : Nat}
    (within : SoundWithin fuel)
    {cs rest : List Char}
    {es : List (String × Json)}
    (h : readEntries (fuel + 1) cs = some (es, rest)) :
    ∃ t, SpellsEntries t es ∧ cs = t ++ '}' :: rest := by
  rw [readEntries_succ] at h
  split at h
  · cases h
  · rename_i e r read
    obtain ⟨u, t, before, spelled, rfl⟩ := readEntry_sound within read
    obtain ⟨v, behind, split⟩ := exists_blank_append_skipSpace r
    split at h
    · rename_i r' closed
      cases h
      rw [closed] at split
      exact ⟨_, .last before spelled behind, by simp [split]⟩
    · rename_i r' separated
      obtain ⟨fs, readRest, rfl⟩ := exists_of_map h
      obtain ⟨ts, spelledRest, rfl⟩ := within.2.2 _ _ _ readRest
      rw [separated] at split
      exact ⟨_, .more before spelled behind spelledRest, by simp [split]⟩
    · cases h

theorem soundWithin
    (fuel : Nat) :
    SoundWithin fuel := by
  induction fuel with
  | zero => exact ⟨nofun, nofun, nofun⟩
  | succ fuel ih =>
      refine ⟨fun cs j rest h => ?_, fun _ _ _ => readItems_sound ih,
        fun _ _ _ => readEntries_sound ih⟩
      obtain ⟨t, spelled, split⟩ := readValue_sound ih h
      obtain ⟨u, blank, whole⟩ := exists_blank_append_skipSpace cs
      exact ⟨u, t, blank, spelled, split ▸ whole⟩

end Sound

section Heads

variable {t cs rest : List Char} {j : Json}

theorem isSpace_eq_false_of_isDigit
    {c : Char}
    (h : c.isDigit = true) :
    isSpace c = false := by
  rw [← Bool.not_eq_true, isSpace_iff]
  have noDigits : ∀ c ∈ [' ', '\t', '\n', '\r'], c.isDigit = false := by simp
  intro space
  cases h.symm.trans (noDigits c space)

/-- A number begins with a digit or a sign. -/
theorem exists_cons_of_isNumber
    (h : IsNumber t) :
    ∃ c cs, t = c :: cs ∧ (c = '-' ∨ c.isDigit = true) := by
  obtain ⟨signed, isWhole, -, -⟩ := h
  rcases signed with rfl | rfl
  · cases isWhole with
    | zero => exact ⟨_, _, rfl, Or.inr rfl⟩
    | digits digits _ =>
        obtain ⟨c, cs, rfl⟩ := List.exists_cons_of_ne_nil digits.1
        exact ⟨c, _, rfl, Or.inr (digits.2 c List.mem_cons_self)⟩
  · exact ⟨_, _, rfl, Or.inl rfl⟩

/-- Data begin with a character that is no space and closes nothing. -/
theorem exists_cons_of_spells
    (h : Spells t j) :
    ∃ c cs, t = c :: cs ∧ isSpace c = false ∧ c ≠ ']' ∧ c ≠ '}' := by
  cases h with
  | number isNumber =>
      obtain ⟨c, cs, rfl, rfl | digit⟩ := exists_cons_of_isNumber isNumber
      · exact ⟨_, _, rfl, by decide⟩
      · refine ⟨c, cs, rfl, isSpace_eq_false_of_isDigit digit, ?_, ?_⟩ <;>
          (rintro rfl; cases digit)
  | _ => exact ⟨_, _, rfl, by decide⟩

theorem length_pos_of_spells
    (h : Spells t j) :
    0 < t.length := by
  obtain ⟨c, cs, rfl, -⟩ := exists_cons_of_spells h
  exact Nat.succ_pos _

theorem length_pos_of_spellsItems
    {xs : List Json}
    (h : SpellsItems t xs) :
    0 < t.length := by
  cases h with
  | last _ item _ | more _ item _ _ =>
      have := length_pos_of_spells item
      simp only [List.length_append]
      omega

theorem exists_cons_of_spellsEntry
    {e : String × Json}
    (h : SpellsEntry t e) :
    ∃ cs, t = '"' :: cs := by
  obtain ⟨key, behindKey, behindColon, value⟩ := h
  exact ⟨_, rfl⟩

theorem length_pos_of_spellsEntries
    {es : List (String × Json)}
    (h : SpellsEntries t es) :
    0 < t.length := by
  cases h with
  | last _ entry _ | more _ entry _ _ =>
      obtain ⟨cs, rfl⟩ := exists_cons_of_spellsEntry entry
      simp only [List.length_append, List.length_cons]
      omega

theorem skipSpace_append_spells
    (h : Spells t j)
    (rest : List Char) :
    skipSpace (t ++ rest) = t ++ rest := by
  obtain ⟨c, cs, rfl, space, -⟩ := exists_cons_of_spells h
  exact skipSpace_cons space _

theorem endsNumber_cons
    {c : Char}
    (h : continuesNumber c = false) :
    EndsNumber (c :: rest) := by
  rintro _ ⟨rfl⟩
  exact h

/-- White space and what closes or separates data end a number. -/
theorem endsNumber_append
    (blank : IsBlank t)
    (ends : EndsNumber rest) :
    EndsNumber (t ++ rest) := by
  cases t with
  | nil => exact ends
  | cons c cs =>
      have ends : ∀ c ∈ [' ', '\t', '\n', '\r'], continuesNumber c = false := by
        simp [continuesNumber]
      exact endsNumber_cons (ends c (blank c List.mem_cons_self))

end Heads

section Complete

/-- Within this fuel a reader of data reads whatever is spelled. -/
def CompleteWithin (fuel : Nat) : Prop :=
  (∀ t j rest, Spells t j → EndsNumber rest → 2 * t.length ≤ fuel + 1 →
      readValue fuel (t ++ rest) = some (j, rest)) ∧
    (∀ t xs rest, SpellsItems t xs → 2 * t.length ≤ fuel →
      readItems fuel (t ++ ']' :: rest) = some (xs, rest)) ∧
    ∀ t es rest, SpellsEntries t es → 2 * t.length ≤ fuel →
      readEntries fuel (t ++ '}' :: rest) = some (es, rest)

/-- What comes first behind white space is still there once it has been skipped. -/
theorem skipSpace_ne_cons
    {u : List Char}
    {c d : Char}
    (blank : IsBlank u)
    (space : isSpace c = false)
    (differs : c ≠ d)
    (cs v rest ds : List Char) :
    skipSpace (u ++ (c :: cs ++ v) ++ rest) ≠ d :: ds := by
  rw [List.append_assoc, skipSpace_append blank, List.cons_append, List.cons_append,
    skipSpace_cons space]
  exact fun same => differs (List.cons.inj same).1

/-- Items do not begin with what closes an array. -/
theorem skipSpace_ne_of_spellsItems
    {t : List Char}
    {xs : List Json}
    (h : SpellsItems t xs)
    (rest cs : List Char) :
    skipSpace (t ++ rest) ≠ ']' :: cs := by
  cases h with
  | last before item _ | more before item _ _ =>
      obtain ⟨c, ds, rfl, space, differs, -⟩ := exists_cons_of_spells item
      exact skipSpace_ne_cons before space differs _ _ _ _

/-- Entries do not begin with what closes an object. -/
theorem skipSpace_ne_of_spellsEntries
    {t : List Char}
    {es : List (String × Json)}
    (h : SpellsEntries t es)
    (rest cs : List Char) :
    skipSpace (t ++ rest) ≠ '}' :: cs := by
  cases h with
  | last before entry _ | more before entry _ _ =>
      obtain ⟨ds, rfl⟩ := exists_cons_of_spellsEntry entry
      exact skipSpace_ne_cons before (by decide) (by decide) _ _ _ _

theorem readValue_complete
    {fuel : Nat}
    (within : CompleteWithin fuel)
    {t rest : List Char}
    {j : Json}
    (h : Spells t j)
    (ends : EndsNumber rest)
    (enough : 2 * t.length ≤ fuel + 2) :
    readValue (fuel + 1) (t ++ rest) = some (j, rest) := by
  obtain ⟨-, items, entries⟩ := within
  rw [readValue, skipSpace_append_spells h]
  cases h with
  | null => rfl
  | true => rfl
  | false => rfl
  | number isNumber =>
      have read := readNumber_append isNumber ends
      obtain ⟨c, cs, rfl, head⟩ := exists_cons_of_isNumber isNumber
      rw [List.cons_append] at read ⊢
      -- the text begins like nothing else, so the reader falls through to numbers
      split
      case h_7 => rw [read]; rfl
      all_goals
        rename_i same
        obtain ⟨rfl, -⟩ := List.cons.inj same
        rcases head with head | head <;> cases head
  | @string cs xs spelled =>
      have read : readString (cs ++ '"' :: rest) = some (xs, rest) :=
        readString_eq_some_iff.mpr ⟨cs, spelled, rfl⟩
      simp [read]
  | emptyArray blank =>
      have closed := skipSpace_cons (c := ']') (by decide) rest
      simp [skipSpace_append blank, closed]
  | @array cs xs spelled =>
      have read := items _ _ rest spelled (by simp at enough; omega)
      simp only [List.cons_append, List.append_assoc, List.nil_append]
      split
      · rename_i closed
        exact absurd closed (skipSpace_ne_of_spellsItems spelled _ _)
      · rw [readItems_skipSpace, read]
        rfl
  | emptyObject blank =>
      have closed := skipSpace_cons (c := '}') (by decide) rest
      simp [skipSpace_append blank, closed]
  | @object cs es spelled =>
      have read := entries _ _ rest spelled (by simp at enough; omega)
      simp only [List.cons_append, List.append_assoc, List.nil_append]
      split
      · rename_i closed
        exact absurd closed (skipSpace_ne_of_spellsEntries spelled _ _)
      · rw [readEntries_skipSpace, read]
        rfl

theorem readItems_complete
    {fuel : Nat}
    (within : CompleteWithin fuel)
    {t rest : List Char}
    {xs : List Json}
    (h : SpellsItems t xs)
    (enough : 2 * t.length ≤ fuel + 1) :
    readItems (fuel + 1) (t ++ ']' :: rest) = some (xs, rest) := by
  obtain ⟨values, items, -⟩ := within
  cases h with
  | @last u t v x before item behind =>
      have ends : EndsNumber (v ++ ']' :: rest) := endsNumber_append behind (endsNumber_cons rfl)
      have read := values _ _ _ item ends (by simp at enough; omega)
      have closed := skipSpace_cons (c := ']') (by decide) rest
      simp [readItems, readValue_blank_append before, read, skipSpace_append behind, closed]
  | @more u t v cs x xs before item behind others =>
      have ends : EndsNumber (v ++ ',' :: (cs ++ ']' :: rest)) :=
        endsNumber_append behind (endsNumber_cons rfl)
      have read := values _ _ _ item ends (by simp at enough; omega)
      have separated := skipSpace_cons (c := ',') (by decide) (cs ++ ']' :: rest)
      have readOthers := items _ _ rest others (by simp at enough; omega)
      simp [readItems, readValue_blank_append before, read, skipSpace_append behind, separated,
        readOthers]

theorem readEntry_complete
    {fuel : Nat}
    (within : CompleteWithin fuel)
    {t rest : List Char}
    {e : String × Json}
    (h : SpellsEntry t e)
    (ends : EndsNumber rest)
    (enough : 2 * t.length ≤ fuel + 1) :
    readEntry fuel (t ++ rest) = some (e, rest) := by
  obtain @⟨ks, v, w, t, keys, x, key, behindKey, behindColon, value⟩ := h
  have read := within.1 _ _ _ value ends (by simp at enough; omega)
  have readKey (r : List Char) : readString (ks ++ '"' :: r) = some (keys, r) :=
    readString_eq_some_iff.mpr ⟨ks, key, rfl⟩
  have quote (r : List Char) : skipSpace ('"' :: r) = '"' :: r := skipSpace_cons (by decide) r
  have colon (r : List Char) : skipSpace (':' :: r) = ':' :: r := skipSpace_cons (by decide) r
  simp [readEntry, quote, readKey, skipSpace_append behindKey, colon,
    readValue_blank_append behindColon, read]

theorem readEntries_complete
    {fuel : Nat}
    (within : CompleteWithin fuel)
    {t rest : List Char}
    {es : List (String × Json)}
    (h : SpellsEntries t es)
    (enough : 2 * t.length ≤ fuel + 1) :
    readEntries (fuel + 1) (t ++ '}' :: rest) = some (es, rest) := by
  cases h with
  | @last u t v e before entry behind =>
      have ends : EndsNumber (v ++ '}' :: rest) := endsNumber_append behind (endsNumber_cons rfl)
      have read := readEntry_complete within entry ends (by simp at enough; omega)
      have closed := skipSpace_cons (c := '}') (by decide) rest
      simp [readEntries_succ, readEntry_blank_append before, read, skipSpace_append behind, closed]
  | @more u t v cs e es before entry behind others =>
      have ends : EndsNumber (v ++ ',' :: (cs ++ '}' :: rest)) :=
        endsNumber_append behind (endsNumber_cons rfl)
      have read := readEntry_complete within entry ends (by simp at enough; omega)
      have separated := skipSpace_cons (c := ',') (by decide) (cs ++ '}' :: rest)
      have readOthers := within.2.2 _ _ rest others (by simp at enough; omega)
      simp [readEntries_succ, readEntry_blank_append before, read, skipSpace_append behind,
        separated, readOthers]

theorem completeWithin
    (fuel : Nat) :
    CompleteWithin fuel := by
  induction fuel with
  | zero =>
      refine ⟨fun t j rest h _ enough => ?_, fun t xs rest h enough => ?_,
        fun t es rest h enough => ?_⟩
      · have := length_pos_of_spells h
        omega
      · have := length_pos_of_spellsItems h
        omega
      · have := length_pos_of_spellsEntries h
        omega
  | succ fuel ih =>
      exact ⟨fun _ _ _ => readValue_complete ih, fun _ _ _ => readItems_complete ih,
        fun _ _ _ => readEntries_complete ih⟩

end Complete

section Exact

/-- The reader gives just the data that the text is spelled for. -/
theorem parse?_eq_some_iff
    {s : String}
    {j : Json} :
    parse? s = some j ↔ j.SpelledBy s := by
  unfold parse?
  constructor
  · intro h
    split at h
    · rename_i x rest read
      obtain ⟨u, t, before, spelled, split⟩ := (soundWithin _).1 _ _ _ read
      rw [Option.ite_none_right_eq_some, List.isEmpty_iff, skipSpace_eq_nil_iff,
        Option.some.injEq] at h
      obtain ⟨behind, rfl⟩ := h
      exact ⟨u, t, rest, split, before, spelled, behind⟩
    · cases h
  · rintro ⟨u, t, v, split, before, spelled, behind⟩
    have ends : EndsNumber v := List.append_nil v ▸ endsNumber_append behind nofun
    have enough : 2 * t.length ≤ 2 * (u ++ (t ++ v)).length + 2 := by
      simp only [List.length_append]
      omega
    have read := (completeWithin _).1 _ _ _ spelled ends enough
    rw [split, readValue_blank_append before, read]
    simp [skipSpace_eq_nil_iff.mpr behind]

/-- A text is spelled for one datum at most. -/
theorem SpelledBy.unique
    {s : String}
    {j j' : Json}
    (h : j.SpelledBy s)
    (h' : j'.SpelledBy s) :
    j = j' :=
  Option.some.inj ((parse?_eq_some_iff.mpr h).symm.trans (parse?_eq_some_iff.mpr h'))

end Exact

end Json

end Supergraph
