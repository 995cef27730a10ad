import Supergraph.Proofs.Vocabulary

/-!
# What the errors of a composition say

Messages are written for people, but they are precise.  `FusionError.Worded` gives the group and
the words of each error that a composition may end in: a conflict names both configurations, a
collision lists the members one after another, types first, and the others name the type or
the template that they are about.  The list of a collision can be read back
(`FusionError.eq_of_worded_collision`): it tells which members collide, and no others.
-/

namespace Supergraph

section Words

/-- The words for a configuration. -/
inductive Config.Words : Config → String → Prop
  | unqualified
      {c : Config}
      (plain : c.qualifier = none ∨ c.qualifier = some "") :
      Words c "no prefix"
  | qualified
      {c : Config}
      {s : String}
      (qualifier : c.qualifier = some s)
      (given : s ≠ "") :
      Words c ("prefix \"" ++ s ++ "\" (prefixSelf: " ++ toString c.qualifyRoot ++ ")")

/-- The entries stand one after another, with commas in between. -/
inductive Listed : List String → String → Prop
  | one
      (s : String) :
      Listed [s] s
  | more
      {s rest : String}
      {ss : List String}
      (further : Listed ss rest) :
      Listed (s :: ss) (s ++ ", " ++ rest)

/-- The entry for a type. -/
def Name.typeEntry (n : Name) : String :=
  "type \"" ++ n.text ++ "\""

/-- The entry for a directive. -/
def Name.directiveEntry (n : Name) : String :=
  "directive \"@" ++ n.text ++ "\""

/-- What is said of an internal error, before the details. -/
def bugReport (details : String) : String :=
  "An internal error has occurred, please report this bug to the composition maintainers.\n\nDetails: "
    ++ details

/-- The error is of this group and has these words. -/
inductive FusionError.Worded : FusionError → ErrorCode → String → Prop
  | configConflict
      {recorded requested : Config}
      {x y : String}
      (had : recorded.Words x)
      (asked : requested.Words y) :
      Worded (.configConflict recorded requested) .configurationConflict
        ("Schema was already composed with " ++ x ++ ", cannot compose it again with " ++ y)
  | nameCollision
      {types directives : List Name}
      {members : String}
      (listed : Listed (types.map Name.typeEntry ++ directives.map Name.directiveEntry) members) :
      Worded (.nameCollision types directives) .configurationConflict
        ("Schema defines " ++ members ++
          " which collide with fusion names, compose with a prefix to avoid the collision")
  | notScalar
      (n : Name)
      (kind : TypeKind) :
      Worded (.notScalar n kind) .internal
        (bugReport ("Expected \"" ++ n.text ++ "\" to be a scalar type but it is " ++ kind.text))
  | notDirective
      (kind : TypeKind)
      (n : Name) :
      Worded (.notDirective kind n) .notSupported
        ("Cannot rewrite " ++ kind.text ++ " \"" ++ n.text ++
          "\": only directive definitions can be rewritten")
  | unboundPlaceholder
      (directive type : Name) :
      Worded (.unboundPlaceholder directive type) .internal
        (bugReport ("Directive template \"@" ++ directive.text ++ "\" references type \"" ++
          type.text ++ "\" which is not registered in this composition"))

end Words

section Messages

theorem Config.words_describe
    (c : Config) :
    c.Words c.describe := by
  obtain ⟨_ | s, b⟩ := c
  · exact .unqualified (Or.inl rfl)
  · by_cases empty : s = ""
    · subst empty
      exact .unqualified (Or.inr rfl)
    · have words : describe ⟨some s, b⟩ =
          "prefix \"" ++ s ++ "\" (prefixSelf: " ++ toString b ++ ")" := by
        cases b <;> simp [describe, effectiveQualifier, empty] <;> rfl
      exact words ▸ .qualified rfl empty

theorem listed_intercalate
    {ss : List String}
    (some : ss ≠ []) :
    Listed ss (String.intercalate ", " ss) := by
  induction ss with
  | nil => exact absurd rfl some
  | cons s ss ih =>
      cases ss with
      | nil =>
          rw [String.intercalate_singleton]
          exact .one s
      | cons t ss =>
          rw [String.intercalate_cons_cons]
          exact .more (ih (List.cons_ne_nil t ss))

namespace FusionError

theorem listed_collisionList
    {types directives : List Name}
    (some : ¬ (types = [] ∧ directives = [])) :
    Listed (types.map Name.typeEntry ++ directives.map Name.directiveEntry)
      (collisionList types directives) := by
  have type : ∀ n : Name, n.typeEntry = "type " ++ inQuotes n.text := by
    intro n
    have opening : "type \"" = "type " ++ "\"" := by decide
    simp only [Name.typeEntry, inQuotes, opening, String.append_assoc]
  have directive : ∀ n : Name, n.directiveEntry = "directive " ++ inQuotes ("@" ++ n.text) := by
    intro n
    have opening : "directive \"@" = "directive " ++ ("\"" ++ "@") := by decide
    simp only [Name.directiveEntry, inQuotes, opening, String.append_assoc]
  rw [List.map_congr_left fun n _ => type n, List.map_congr_left fun n _ => directive n]
  refine listed_intercalate fun none => some ?_
  simpa using none

/-- The group and the words of a conflict. -/
theorem worded_configConflict
    (recorded requested : Config) :
    (configConflict recorded requested).Worded (configConflict recorded requested).code
      (configConflict recorded requested).message :=
  .configConflict recorded.words_describe requested.words_describe

/-- The group and the words of a collision of any member at all. -/
theorem worded_nameCollision
    {types directives : List Name}
    (some : ¬ (types = [] ∧ directives = [])) :
    (nameCollision types directives).Worded (nameCollision types directives).code
      (nameCollision types directives).message :=
  .nameCollision (listed_collisionList some)

theorem worded_notScalar
    (n : Name)
    (kind : TypeKind) :
    (notScalar n kind).Worded (notScalar n kind).code (notScalar n kind).message := by
  have opening : "Expected \"" = "Expected " ++ "\"" := by decide
  have closing : "\" to be a scalar type but it is " =
      "\"" ++ " to be a scalar type but it is " := by decide
  have words : (notScalar n kind).message = bugReport
      ("Expected \"" ++ n.text ++ "\" to be a scalar type but it is " ++ kind.text) := by
    refine congrArg bugReport ?_
    simp only [inQuotes, opening, closing, String.append_assoc]
  rw [words]
  exact .notScalar n kind

theorem worded_notDirective
    (kind : TypeKind)
    (n : Name) :
    (notDirective kind n).Worded (notDirective kind n).code (notDirective kind n).message := by
  have opening : " \"" = " " ++ "\"" := by decide
  have closing : "\": only directive definitions can be rewritten" =
      "\"" ++ ": only directive definitions can be rewritten" := by decide
  have words : (notDirective kind n).message = "Cannot rewrite " ++ kind.text ++ " \"" ++ n.text ++
      "\": only directive definitions can be rewritten" := by
    show "Cannot rewrite " ++ kind.text ++ " " ++ inQuotes n.text ++
      ": only directive definitions can be rewritten" = _
    simp only [inQuotes, opening, closing, String.append_assoc]
  rw [words]
  exact .notDirective kind n

theorem worded_unboundPlaceholder
    (d t : Name) :
    (unboundPlaceholder d t).Worded (unboundPlaceholder d t).code
      (unboundPlaceholder d t).message := by
  have opening : "Directive template \"@" = "Directive template " ++ ("\"" ++ "@") := by decide
  have middle : "\" references type \"" = "\"" ++ (" references type " ++ "\"") := by decide
  have closing : "\" which is not registered in this composition" =
      "\"" ++ " which is not registered in this composition" := by decide
  have words : (unboundPlaceholder d t).message = bugReport
      ("Directive template \"@" ++ d.text ++ "\" references type \"" ++ t.text ++
        "\" which is not registered in this composition") := by
    refine congrArg bugReport ?_
    simp only [inQuotes, opening, middle, closing, String.append_assoc]
  rw [words]
  exact .unboundPlaceholder d t

end FusionError

end Messages

section Reading

/-- Where the separator does not come before, it divides a list in one way. -/
theorem eq_of_separator_append
    {α : Type}
    {c : α}
    {xs ys us vs : List α}
    (hxs : c ∉ xs)
    (hys : c ∉ ys)
    (h : xs ++ c :: us = ys ++ c :: vs) :
    xs = ys ∧ us = vs := by
  have turned : us.reverse ++ c :: xs.reverse = vs.reverse ++ c :: ys.reverse := by
    simpa using congrArg List.reverse h
  obtain ⟨right, left⟩ := eq_of_append_separator (by simpa using hxs) (by simpa using hys) turned
  exact ⟨List.reverse_injective left, List.reverse_injective right⟩

/-- The text has two quotes, and it ends with the second. -/
def EndsQuoted (s : String) : Prop :=
  ∃ before inside : List Char, '"' ∉ before ∧ '"' ∉ inside ∧
    s.toList = before ++ '"' :: (inside ++ ['"'])

theorem EndsQuoted.eq_of_append
    {s t : String}
    {xs ys : List Char}
    (hs : EndsQuoted s)
    (ht : EndsQuoted t)
    (h : s.toList ++ xs = t.toList ++ ys) :
    s = t ∧ xs = ys := by
  obtain ⟨before, inside, hb, hi, spelled⟩ := hs
  obtain ⟨before', inside', hb', hi', spelled'⟩ := ht
  rw [spelled, spelled'] at h
  simp only [List.append_assoc, List.cons_append, List.nil_append] at h
  obtain ⟨rfl, rest⟩ := eq_of_separator_append hb hb' h
  obtain ⟨rfl, rfl⟩ := eq_of_separator_append hi hi' rest
  exact ⟨String.toList_injective (spelled.trans spelled'.symm), rfl⟩

/-- A list of entries that end with quotes is read in one way. -/
theorem Listed.eq_of_endsQuoted
    {ss ts : List String}
    {text : String}
    (hs : Listed ss text)
    (ht : Listed ts text)
    (left : ∀ s ∈ ss, EndsQuoted s)
    (right : ∀ t ∈ ts, EndsQuoted t) :
    ss = ts := by
  -- Behind an entry there is either nothing or a comma.
  have goes : ∀ {s t : String} (rest : String), EndsQuoted s → EndsQuoted t →
      s ≠ t ++ ", " ++ rest := by
    intro s t rest hs ht h
    have texts : s.toList ++ [] = t.toList ++ (", " ++ rest).toList := by
      rw [List.append_nil, h, String.append_assoc, String.toList_append]
    have none := (hs.eq_of_append ht texts).2
    simp [String.toList_append] at none
  induction hs generalizing ts with
  | one s =>
      cases ht with
      | one => rfl
      | @more t rest =>
          exact absurd rfl (goes rest (left _ (by simp)) (right t List.mem_cons_self))
  | @more s rest ss further ih =>
      generalize whole : s ++ ", " ++ rest = text at ht
      cases ht with
      | one =>
          exact absurd whole.symm (goes rest (right text (by simp)) (left s List.mem_cons_self))
      | @more t rest' ts further' =>
          have texts : s.toList ++ (", " ++ rest).toList = t.toList ++ (", " ++ rest').toList := by
            rw [← String.toList_append, ← String.toList_append, ← String.append_assoc, whole,
              String.append_assoc]
          rw [List.forall_mem_cons] at left right
          obtain ⟨rfl, same⟩ := left.1.eq_of_append right.1 texts
          rw [String.toList_append, String.toList_append, List.append_cancel_left_eq] at same
          obtain rfl := String.toList_injective same
          rw [ih further' left.2 right.2]

theorem Name.quote_not_mem
    (n : Name) :
    '"' ∉ n.text.toList := by
  intro mem
  have continues := List.all_eq_true.mp (all_isNameChar_of_spellsName n.spelled) _ mem
  exact absurd continues (by decide)

theorem Name.endsQuoted_typeEntry
    (n : Name) :
    EndsQuoted n.typeEntry := by
  refine ⟨"type ".toList, n.text.toList, by decide, n.quote_not_mem, ?_⟩
  have opening : "type \"".toList = "type ".toList ++ ['"'] := by decide
  simp [typeEntry, String.toList_append, opening]

theorem Name.endsQuoted_directiveEntry
    (n : Name) :
    EndsQuoted n.directiveEntry := by
  refine ⟨"directive ".toList, '@' :: n.text.toList, by decide, ?_, ?_⟩
  · rw [List.mem_cons, not_or]
    exact ⟨by decide, n.quote_not_mem⟩
  · have opening : "directive \"@".toList = "directive ".toList ++ ['"', '@'] := by decide
    simp [directiveEntry, String.toList_append, opening]

theorem Name.typeEntry_injective
    {n m : Name}
    (h : n.typeEntry = m.typeEntry) :
    n = m := by
  have texts := congrArg String.toList h
  simp only [typeEntry, String.toList_append, List.append_cancel_right_eq,
    List.append_cancel_left_eq] at texts
  exact ext_text (String.toList_injective texts)

theorem Name.directiveEntry_injective
    {n m : Name}
    (h : n.directiveEntry = m.directiveEntry) :
    n = m := by
  have texts := congrArg String.toList h
  simp only [directiveEntry, String.toList_append, List.append_cancel_right_eq,
    List.append_cancel_left_eq] at texts
  exact ext_text (String.toList_injective texts)

theorem Name.typeEntry_ne_directiveEntry
    (n m : Name) :
    n.typeEntry ≠ m.directiveEntry := by
  intro h
  have texts := congrArg (fun s => s.toList.head?) h
  simp [typeEntry, directiveEntry, String.toList_append] at texts

/-- Two lists of entries of two sorts are the same only if they have the same entries of either
sort. -/
theorem eq_of_map_append_map
    {α β γ : Type}
    {f : α → γ}
    {g : β → γ}
    (hf : Function.Injective f)
    (hg : Function.Injective g)
    (apart : ∀ a b, f a ≠ g b)
    {xs xs' : List α}
    {ys ys' : List β}
    (h : xs.map f ++ ys.map g = xs'.map f ++ ys'.map g) :
    xs = xs' ∧ ys = ys' := by
  induction xs generalizing xs' with
  | nil =>
      cases xs' with
      | nil => exact ⟨rfl, hg.list_map h⟩
      | cons x' xs' =>
          cases ys with
          | nil => cases h
          | cons y ys => exact absurd (List.cons.inj h).1.symm (apart x' y)
  | cons x xs ih =>
      cases xs' with
      | nil =>
          cases ys' with
          | nil => cases h
          | cons y ys => exact absurd (List.cons.inj h).1 (apart x y)
      | cons x' xs' =>
          obtain ⟨head, tail⟩ := List.cons.inj h
          obtain ⟨rfl, rest⟩ := ih tail
          exact ⟨by rw [hf head], rest⟩

/-- **The message of a collision tells which members collide.** -/
theorem FusionError.eq_of_worded_collision
    {types directives types' directives' : List Name}
    {code code' : ErrorCode}
    {text : String}
    (h : (nameCollision types directives).Worded code text)
    (h' : (nameCollision types' directives').Worded code' text) :
    types = types' ∧ directives = directives' := by
  have quoted : ∀ ns ms : List Name,
      ∀ s ∈ ns.map Name.typeEntry ++ ms.map Name.directiveEntry, EndsQuoted s := by
    intro ns ms s hs
    rcases List.mem_append.mp hs with hs | hs
    · obtain ⟨n, -, rfl⟩ := List.mem_map.mp hs
      exact n.endsQuoted_typeEntry
    · obtain ⟨n, -, rfl⟩ := List.mem_map.mp hs
      exact n.endsQuoted_directiveEntry
  generalize whole : text = text' at h'
  cases h with
  | nameCollision listed =>
      cases h' with
      | nameCollision listed' =>
          have texts := congrArg String.toList whole
          simp only [String.toList_append, List.append_cancel_right_eq,
            List.append_cancel_left_eq] at texts
          obtain rfl := String.toList_injective texts
          exact eq_of_map_append_map (fun _ _ => Name.typeEntry_injective)
            (fun _ _ => Name.directiveEntry_injective) Name.typeEntry_ne_directiveEntry
            (listed.eq_of_endsQuoted listed' (quoted _ _) (quoted _ _))

end Reading

end Supergraph
