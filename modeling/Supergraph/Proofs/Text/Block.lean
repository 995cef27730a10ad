import Supergraph.Text.Block

/-!
# Block strings are read back

What is written between triple quotes is read as its raw text, and the value of the raw
text is what was written, if some block string can have that value (`read_write`).
-/

namespace Supergraph
namespace Block

section Reading

theorem read_cons
    {c : Char}
    {cs : List Char}
    (quote : c = '"' → ∀ xs, cs ≠ '"' :: '"' :: xs)
    (backslash : c = '\\' → ∀ xs, cs ≠ '"' :: '"' :: '"' :: xs) :
    read (c :: cs) = (read cs).map (fun p => (c :: p.1, p.2)) := by
  rw [read]
  · cases read cs <;> rfl
  · intro xs hc hcs
    exact quote hc xs hcs
  · intro xs hc hcs
    exact backslash hc xs hcs

/-- Characters that end nothing are read one after the other. -/
theorem read_append
    {xs : List Char}
    (plain : ∀ c ∈ xs, c ≠ '"' ∧ c ≠ '\\')
    (cs : List Char) :
    read (xs ++ cs) = (read cs).map (fun p => (xs ++ p.1, p.2)) := by
  induction xs with
  | nil => simp
  | cons c xs ih =>
      have hc := plain c List.mem_cons_self
      rw [List.cons_append, read_cons (fun h => absurd h hc.1) (fun h => absurd h hc.2),
        ih fun x hx => plain x (List.mem_cons_of_mem c hx), Option.map_map]
      rfl

/-- An encoded text begins with a quote only if the text does, and does not begin with
three. -/
theorem encode_append_eq_quote
    {cs rest xs : List Char}
    (h : encode cs ++ rest = '"' :: xs) :
    (cs = [] ∧ rest = '"' :: xs) ∨
      ∃ ds, cs = '"' :: ds ∧ (∀ es, ds ≠ '"' :: '"' :: es) ∧ encode ds ++ rest = xs := by
  unfold encode at h
  split at h
  · cases h
  · rename_i c ds single
    cases h
    exact Or.inr ⟨ds, rfl, fun es hes => single es rfl hes, rfl⟩
  · exact Or.inl ⟨rfl, h⟩

/-- An encoded text is read as the text, unless it runs into the quotes behind it. -/
theorem read_encode_append
    {cs rest : List Char}
    (apart : cs.getLast? = some '"' ∨ cs.getLast? = some '\\' → rest.head? ≠ some '"') :
    read (encode cs ++ rest) = (read rest).map (fun p => (cs ++ p.1, p.2)) := by
  fun_induction encode cs with
  | case1 cs ih =>
      have last : ∀ x, cs.getLast? = some x → ('"' :: '"' :: '"' :: cs).getLast? = some x := by
        intro x hx
        simp [List.getLast?_cons, hx]
      have tail := ih fun h => apart (h.imp (last _) (last _))
      simp only [List.cons_append]
      rw [read, tail]
      cases read rest <;> rfl
  | case2 c cs single ih =>
      have last : ∀ x, cs.getLast? = some x → (c :: cs).getLast? = some x := by
        intro x hx
        simp [List.getLast?_cons, hx]
      have tail := ih fun h => apart (h.imp (last _) (last _))
      have unquoted : ∀ x, (c :: cs).getLast? = some x → x = '"' ∨ x = '\\' →
          ∀ xs, rest ≠ '"' :: xs := by
        rintro x hx (rfl | rfl) xs rfl
        · exact apart (Or.inl hx) rfl
        · exact apart (Or.inr hx) rfl
      rw [List.cons_append, read_cons, tail, Option.map_map]
      · rfl
      · rintro rfl xs hxs
        rcases encode_append_eq_quote hxs with ⟨rfl, hrest⟩ | ⟨ds, rfl, -, hds⟩
        · exact unquoted _ rfl (Or.inl rfl) _ hrest
        · rcases encode_append_eq_quote hds with ⟨rfl, hrest⟩ | ⟨es, rfl, -, -⟩
          · exact unquoted _ rfl (Or.inl rfl) _ hrest
          · exact single es rfl rfl
      · rintro rfl xs hxs
        rcases encode_append_eq_quote hxs with ⟨rfl, hrest⟩ | ⟨ds, rfl, notThree, hds⟩
        · exact unquoted _ rfl (Or.inr rfl) _ hrest
        · rcases encode_append_eq_quote hds with ⟨rfl, hrest⟩ | ⟨es, rfl, -, hes⟩
          · exact unquoted _ rfl (Or.inl rfl) _ hrest
          · rcases encode_append_eq_quote hes with ⟨rfl, hrest⟩ | ⟨fs, rfl, -, -⟩
            · exact unquoted _ rfl (Or.inl rfl) _ hrest
            · exact notThree fs rfl
  | case3 => simp

end Reading

section Lines

/-- A line has no line break in it. -/
theorem unbroken_of_mem_lines
    {cs l : List Char}
    (h : l ∈ lines cs) :
    ∀ c ∈ l, c ≠ '\n' ∧ c ≠ '\r' := by
  fun_induction lines cs generalizing l with
  | case1 =>
      obtain rfl := List.mem_singleton.mp h
      simp
  | case2 cs ih =>
      rcases List.mem_cons.mp h with rfl | h
      · simp
      · exact ih h
  | case3 cs _ ih =>
      rcases List.mem_cons.mp h with rfl | h
      · simp
      · exact ih h
  | case4 cs ih =>
      rcases List.mem_cons.mp h with rfl | h
      · simp
      · exact ih h
  | case5 c cs _ hr hn _ _ =>
      obtain rfl := List.mem_singleton.mp h
      simpa using ⟨hn, hr⟩
  | case6 c cs _ hr hn l' ls cut ih =>
      rcases List.mem_cons.mp h with rfl | h
      · exact List.forall_mem_cons.mpr ⟨⟨hn, hr⟩, ih (cut ▸ List.mem_cons_self)⟩
      · exact ih (cut ▸ List.mem_cons_of_mem l' h)

theorem lines_ne_nil
    (cs : List Char) :
    lines cs ≠ [] := by
  fun_cases lines cs <;> simp

theorem lines_newline
    (cs : List Char) :
    lines ('\n' :: cs) = [] :: lines cs := by
  rw [lines]

theorem lines_cons
    {c : Char}
    (unbroken : c ≠ '\n' ∧ c ≠ '\r')
    {cs l : List Char}
    {ls : List (List Char)}
    (h : lines cs = l :: ls) :
    lines (c :: cs) = (c :: l) :: ls := by
  rw [lines]
  · rw [h]
  · exact fun _ hc _ => unbroken.2 hc
  · exact fun hc => unbroken.2 hc
  · exact fun hc => unbroken.1 hc

/-- Characters that break no line stand in front of the first line. -/
theorem lines_append
    {xs : List Char}
    (unbroken : ∀ c ∈ xs, c ≠ '\n' ∧ c ≠ '\r')
    {cs l : List Char}
    {ls : List (List Char)}
    (h : lines cs = l :: ls) :
    lines (xs ++ cs) = (xs ++ l) :: ls := by
  induction xs with
  | nil => exact h
  | cons c xs ih =>
      exact lines_cons (unbroken c List.mem_cons_self)
        (ih fun x hx => unbroken x (List.mem_cons_of_mem c hx))

theorem joinLines_cons
    (c : Char)
    (l : List Char)
    (ls : List (List Char)) :
    joinLines ((c :: l) :: ls) = c :: joinLines (l :: ls) := by
  cases ls <;> rfl

/-- The lines of a text put together are the text. -/
theorem joinLines_lines
    {cs : List Char}
    (h : '\r' ∉ cs) :
    joinLines (lines cs) = cs := by
  fun_induction lines cs with
  | case1 => rfl
  | case2 cs ih => simp at h
  | case3 cs _ ih => simp at h
  | case4 cs ih =>
      have tail := ih fun hr => h (List.mem_cons_of_mem _ hr)
      obtain ⟨l, ls, cut⟩ := List.exists_cons_of_ne_nil (lines_ne_nil cs)
      rw [cut] at tail ⊢
      show '\n' :: joinLines (l :: ls) = '\n' :: cs
      rw [tail]
  | case5 c cs _ _ _ empty _ => exact absurd empty (lines_ne_nil cs)
  | case6 c cs _ _ _ l ls cut ih =>
      rw [joinLines_cons, ← cut, ih fun hr => h (List.mem_cons_of_mem c hr)]

end Lines

section Indentation

/-- A line of a block string at a level of indentation. -/
def indented (level : Nat) (l : List Char) : List Char :=
  (if l.isEmpty then [] else margin level) ++ l

/-- What stands between the triple quotes, but for the escapes. -/
def raw (level : Nat) (cs : List Char) : List Char :=
  if needsLines cs then
    '\n' :: (lines cs).flatMap (fun l => indented level l ++ ['\n']) ++ margin level
  else cs

variable {level : Nat}

theorem mem_margin
    {c : Char}
    (h : c ∈ margin level) :
    c = ' ' :=
  List.eq_of_mem_replicate h

theorem isBlankLine_margin :
    isBlankLine (margin level) = true := by
  rw [isBlankLine, List.all_eq_true]
  intro c hc
  rw [mem_margin hc]
  rfl

theorem isBlankLine_indented
    (l : List Char) :
    isBlankLine (indented level l) = isBlankLine l := by
  have blank : isBlankLine (margin level) = true := isBlankLine_margin
  unfold isBlankLine indented at *
  rw [List.all_append]
  split
  · simp
  · rw [blank, Bool.true_and]

theorem drop_indented
    (l : List Char) :
    (indented level l).drop (2 * level) = l := by
  unfold indented
  split
  · rename_i empty
    simp [List.isEmpty_iff.mp empty]
  · have length : (margin level).length = 2 * level := List.length_replicate
    rw [← length, List.drop_left]

theorem indent_indented
    {l : List Char}
    (text : isBlankLine l = false) :
    indent (indented level l) = 2 * level + indent l := by
  have nonempty : l.isEmpty = false := by
    cases l with
    | nil => cases text
    | cons => rfl
  have blanks : ∀ c ∈ margin level, isBlank c = true := fun c hc => by rw [mem_margin hc]; rfl
  rw [indent, indented, nonempty, if_neg Bool.false_ne_true, List.takeWhile_append_of_pos blanks,
    List.length_append, margin, List.length_replicate]
  rfl

/-- Lines that have no indentation in common have that of their level once they are
indented. -/
theorem commonIndent_indented
    {ls : List (List Char)}
    (text : ∃ l ∈ ls, isBlankLine l = false)
    (flush : commonIndent ls = 0) :
    commonIndent (ls.map (indented level) ++ [margin level]) = 2 * level := by
  have least : ((ls.filter (fun l => !isBlankLine l)).map indent).min? = some 0 := by
    unfold commonIndent at flush
    cases found : ((ls.filter (fun l => !isBlankLine l)).map indent).min? with
    | none =>
        obtain ⟨l, hl, hlt⟩ := text
        rw [List.min?_eq_none_iff, List.map_eq_nil_iff, List.filter_eq_nil_iff] at found
        exact absurd (by simp [hlt]) (found l hl)
    | some m =>
        rw [found] at flush
        exact congrArg some flush
  have indents : ((ls.map (indented level) ++ [margin level]).filter (fun l => !isBlankLine l)).map
      indent = (ls.filter (fun l => !isBlankLine l)).map (fun l => 2 * level + indent l) := by
    have blank : [margin level].filter (fun l => !isBlankLine l) = [] := by
      simp [isBlankLine_margin]
    rw [List.filter_append, blank, List.append_nil, List.filter_map, List.map_map]
    simp only [Function.comp_def, isBlankLine_indented]
    refine List.map_congr_left fun l hl => indent_indented ?_
    simpa using (List.mem_filter.mp hl).2
  obtain ⟨flushed, -⟩ := List.min?_eq_some_iff.mp least
  obtain ⟨l, hl, hlz⟩ := List.mem_map.mp flushed
  have shifted : ((ls.filter (fun l => !isBlankLine l)).map (fun l => 2 * level + indent l)).min? =
      some (2 * level) := by
    refine List.min?_eq_some_iff.mpr ⟨List.mem_map.mpr ⟨l, hl, by omega⟩, ?_⟩
    intro n hn
    obtain ⟨m, -, rfl⟩ := List.mem_map.mp hn
    exact Nat.le_add_right _ _
  rw [commonIndent, indents, shifted]
  rfl

/-- The lines of the raw text. -/
theorem lines_flatMap_indented
    {ls : List (List Char)}
    (unbroken : ∀ l ∈ ls, ∀ c ∈ l, c ≠ '\n' ∧ c ≠ '\r') :
    lines (ls.flatMap (fun l => indented level l ++ ['\n']) ++ margin level) =
      ls.map (indented level) ++ [margin level] := by
  have margins : ∀ c ∈ margin level, c ≠ '\n' ∧ c ≠ '\r' := by
    intro c hc
    rw [mem_margin hc]
    decide
  induction ls with
  | nil =>
      have last := lines_append margins (show lines [] = [[]] from rfl)
      simpa using last
  | cons l ls ih =>
      have rest := ih fun l' hl' => unbroken l' (List.mem_cons_of_mem l hl')
      have line : ∀ c ∈ indented level l, c ≠ '\n' ∧ c ≠ '\r' := by
        intro c hc
        rcases List.mem_append.mp hc with hc | hc
        · split at hc
          · cases hc
          · exact margins c hc
        · exact unbroken l List.mem_cons_self c hc
      have first := lines_append line
        (lines_newline (ls.flatMap (fun l => indented level l ++ ['\n']) ++ margin level))
      rw [rest, List.append_nil] at first
      simpa using first

/-- Blank lines are taken away up to the first and the last line with text. -/
theorem trimLines_append
    {ls front back : List (List Char)}
    (nonempty : ls ≠ [])
    (first : ls.head?.any isBlankLine = false)
    (last : ls.getLast?.any isBlankLine = false)
    (blankFront : ∀ l ∈ front, isBlankLine l = true)
    (blankBack : ∀ l ∈ back, isBlankLine l = true) :
    trimLines (front ++ ls ++ back) = ls := by
  obtain ⟨l, ls', rfl⟩ := List.exists_cons_of_ne_nil nonempty
  have starts : isBlankLine l = false := first
  obtain ⟨m, ms, back'⟩ := List.exists_cons_of_ne_nil (List.reverse_ne_nil_iff.mpr nonempty)
  have ends : isBlankLine m = false := by
    rw [← List.head?_reverse, back'] at last
    exact last
  have fronted : (front ++ (l :: ls') ++ back).dropWhile isBlankLine = (l :: ls') ++ back := by
    rw [List.append_assoc, List.dropWhile_append_of_pos blankFront, List.cons_append,
      List.dropWhile_cons_of_neg (by simp [starts])]
  have backed : (((l :: ls') ++ back).reverse.dropWhile isBlankLine) = m :: ms := by
    rw [List.reverse_append, List.dropWhile_append_of_pos (by simpa using blankBack), back',
      List.dropWhile_cons_of_neg (by simp [ends])]
  rw [trimLines, fronted, backed, ← back', List.reverse_reverse]

/-- The value of the raw text is what was written. -/
theorem value_raw
    {cs : List Char}
    (h : canHold cs = true) :
    value (raw level cs) = cs := by
  simp only [canHold, Bool.and_eq_true, Bool.not_eq_true', beq_iff_eq] at h
  obtain ⟨⟨⟨unreturned, first⟩, last⟩, flush⟩ := h
  have unreturned : '\r' ∉ cs := by simpa using unreturned
  unfold raw
  split
  · obtain ⟨l, ls, cut⟩ := List.exists_cons_of_ne_nil (lines_ne_nil cs)
    have text : isBlankLine l = false := by simpa [cut] using first
    have unbroken : ∀ l ∈ lines cs, ∀ c ∈ l, c ≠ '\n' ∧ c ≠ '\r' := fun _ => unbroken_of_mem_lines
    have common : commonIndent ((lines cs).map (indented level) ++ [margin level]) = 2 * level :=
      commonIndent_indented ⟨l, cut ▸ List.mem_cons_self, text⟩ flush
    have flushed : ((lines cs).map (indented level) ++ [margin level]).map
        (fun m => m.drop (2 * level)) = lines cs ++ [[]] := by
      simp [Function.comp_def, drop_indented, margin]
    have trimmed := trimLines_append (lines_ne_nil cs) first last
      (show ∀ m ∈ [[]], isBlankLine m = true by simp [isBlankLine])
      (show ∀ m ∈ [[]], isBlankLine m = true by simp [isBlankLine])
    rw [value, List.cons_append, lines_newline, lines_flatMap_indented unbroken, dedent, common,
      flushed]
    exact (congrArg joinLines trimmed).trans (joinLines_lines unreturned)
  · rename_i short
    have unbroken : ∀ c ∈ cs, c ≠ '\n' ∧ c ≠ '\r' := by
      intro c hc
      constructor
      · rintro rfl
        simp [needsLines, hc] at short
      · rintro rfl
        exact unreturned hc
    have single : lines cs = [cs] := by
      simpa using lines_append unbroken (show lines [] = [[]] from rfl)
    rw [single] at first last
    have trimmed := trimLines_append (List.cons_ne_nil cs []) first last
      (show ∀ m ∈ [], isBlankLine m = true by simp) (show ∀ m ∈ [], isBlankLine m = true by simp)
    rw [value, single]
    exact congrArg joinLines trimmed

end Indentation

section Writing

variable {level : Nat} {cs : List Char}

/-- The lines of a text are read as they are written. -/
theorem read_flatMap_encode
    (ls : List (List Char))
    (rest : List Char) :
    read (ls.flatMap (fun l => (if l.isEmpty then [] else margin level) ++ encode l ++ ['\n'])
        ++ rest) =
      (read rest).map
        (fun p => (ls.flatMap (fun l => indented level l ++ ['\n']) ++ p.1, p.2)) := by
  have plain : ∀ l : List Char, ∀ c ∈ (if l.isEmpty then [] else margin level),
      c ≠ '"' ∧ c ≠ '\\' := by
    intro l c hc
    split at hc
    · cases hc
    · rw [mem_margin hc]
      decide
  induction ls with
  | nil => simp
  | cons l ls ih =>
      rw [List.flatMap_cons, List.append_assoc, List.append_assoc, List.append_assoc,
        read_append (plain l), read_encode_append (by simp), List.singleton_append,
        read_cons (fun h => absurd h (by decide)) (fun h => absurd h (by decide)), ih]
      simp [Option.map_map, Function.comp_def, indented]

/-- **Block strings are read back.**  What is written between triple quotes is read up to
the last three, and its value is the text, if some block string has that value. -/
theorem read_write
    (level : Nat)
    (h : canHold cs = true)
    (rest : List Char) :
    ∃ body xs, write level cs ++ rest = '"' :: '"' :: '"' :: body ∧
      read body = some (xs, rest) ∧ value xs = cs := by
  have closed : read (tripleQuote ++ rest) = some ([], rest) := by
    simp [tripleQuote, read]
  have margins : ∀ c ∈ margin level, c ≠ '"' ∧ c ≠ '\\' := by
    intro c hc
    rw [mem_margin hc]
    decide
  have value : value (raw level cs) = cs := value_raw h
  unfold raw at value
  by_cases long : needsLines cs = true
  · rw [if_pos long] at value
    refine ⟨'\n' :: ((lines cs).flatMap
        (fun l => (if l.isEmpty then [] else margin level) ++ encode l ++ ['\n'])
      ++ (margin level ++ (tripleQuote ++ rest))), _, by simp [write, long, tripleQuote], ?_, value⟩
    rw [read_cons (fun h => absurd h (by decide)) (fun h => absurd h (by decide)),
      read_flatMap_encode, read_append margins, closed]
    simp
  · rw [if_neg long] at value
    refine ⟨encode cs ++ (tripleQuote ++ rest), _, by simp [write, long, tripleQuote], ?_, value⟩
    have apart : ¬ (cs.getLast? = some '"' ∨ cs.getLast? = some '\\') := by
      rintro (last | last) <;> simp [needsLines, last] at long
    rw [read_encode_append (fun h => absurd h apart), closed]
    simp

end Writing

end Block
end Supergraph
