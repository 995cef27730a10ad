import Supergraph.Fusion.Config.Json
import Supergraph.Fusion.Vocabulary
import Supergraph.Proofs.Json
import Mathlib

/-!
# Configurations are read exactly

Which data stand for a configuration is said without the reader: `Config.WrittenAs` for a given
configuration, and `Config.IsConfiguration` by the form of the data alone.  The reader gives a
configuration for just these data (`ofJson?_eq_some_iff`), and so for just the texts that spell
them (`parse?_eq_some_iff`).

The configuration is kept as it was written, but what is made of it depends on its normal form;
`parse_is_exact` has all of this.
-/

namespace Supergraph

namespace Config

section Forms

/-- The data for a prefix. -/
def qualifierJson : Option String → Json
  | none => .null
  | some s => .string s

/-- The entries of the configuration, with nothing left out. -/
def entries (c : Config) : List (String × Json) :=
  [("prefix", qualifierJson c.qualifier), ("prefixSelf", .boolean c.qualifyRoot)]

/-- The data stands for the configuration: an object with some of its entries in any order, or
an array with the first of their values.  What is left out is no prefix and `false`. -/
inductive WrittenAs (c : Config) : Json → Prop
  | object
      {es : List (String × Json)}
      (own : ∀ e ∈ es, e ∈ c.entries)
      (once : (es.map Prod.fst).Nodup)
      (noQualifier : "prefix" ∉ es.map Prod.fst → c.qualifier = none)
      (noAnswer : "prefixSelf" ∉ es.map Prod.fst → c.qualifyRoot = false) :
      WrittenAs c (.object es)
  | array
      {xs : List Json}
      (own : xs <+: c.entries.map Prod.snd)
      (noQualifier : xs.length < 1 → c.qualifier = none)
      (noAnswer : xs.length < 2 → c.qualifyRoot = false) :
      WrittenAs c (.array xs)

/-- A prefix is a string or null. -/
inductive IsQualifier : Json → Prop
  | null :
      IsQualifier .null
  | string
      (s : String) :
      IsQualifier (.string s)

/-- An entry that a configuration may have: a known key and a value of its type. -/
def IsEntry (e : String × Json) : Prop :=
  (e.1 = "prefix" ∧ IsQualifier e.2) ∨ (e.1 = "prefixSelf" ∧ ∃ b, e.2 = .boolean b)

/-- The form of data for a configuration: an object with entries of it, each key once at most,
or an array of the prefix and the answer for the root directive, both or only the first or
neither. -/
inductive IsConfiguration : Json → Prop
  | object
      {es : List (String × Json)}
      (known : ∀ e ∈ es, IsEntry e)
      (once : (es.map Prod.fst).Nodup) :
      IsConfiguration (.object es)
  | empty :
      IsConfiguration (.array [])
  | qualifier
      {q : Json}
      (isQualifier : IsQualifier q) :
      IsConfiguration (.array [q])
  | both
      {q : Json}
      (isQualifier : IsQualifier q)
      (b : Bool) :
      IsConfiguration (.array [q, .boolean b])

variable {c : Config} {es fs : List (String × Json)}

theorem isQualifier_iff
    {j : Json} :
    IsQualifier j ↔ ∃ q, j = qualifierJson q := by
  constructor
  · rintro (_ | s)
    exacts [⟨none, rfl⟩, ⟨some s, rfl⟩]
  · rintro ⟨_ | s, rfl⟩
    exacts [.null, .string s]

/-- Where keys come once, one part is written under a key; it is the default if the key is left
out. -/
theorem exists_part
    {α : Type}
    (write : α → Json)
    (default : α)
    {k : String}
    (once : (es.map Prod.fst).Nodup)
    (typed : ∀ j, (k, j) ∈ es → ∃ a, j = write a) :
    ∃ a, (∀ j, (k, j) ∈ es → j = write a) ∧ (k ∉ es.map Prod.fst → a = default) := by
  by_cases present : k ∈ es.map Prod.fst
  · obtain ⟨⟨_, j⟩, he, rfl⟩ := List.mem_map.mp present
    obtain ⟨a, rfl⟩ := typed j he
    have same (j' : Json) (he' : (_, j') ∈ es) : j' = write a :=
      congrArg Prod.snd (List.inj_on_of_nodup_map once he' he rfl)
    exact ⟨a, same, absurd present⟩
  · exact ⟨default, fun j he => absurd (List.mem_map_of_mem he) present, fun _ => rfl⟩

theorem mem_entries_iff
    {k : String}
    {j : Json} :
    (k, j) ∈ c.entries ↔
      (k = "prefix" ∧ j = qualifierJson c.qualifier) ∨
        (k = "prefixSelf" ∧ j = .boolean c.qualifyRoot) := by
  simp [entries]

theorem writtenAs_array_iff
    {xs : List Json} :
    c.WrittenAs (.array xs) ↔
      (xs = [] ∧ c.qualifier = none ∧ c.qualifyRoot = false) ∨
        (xs = [qualifierJson c.qualifier] ∧ c.qualifyRoot = false) ∨
          xs = [qualifierJson c.qualifier, .boolean c.qualifyRoot] := by
  constructor
  · rintro ⟨⟩
    rename_i own noQualifier noAnswer
    simp only [entries, List.map_cons, List.map_nil, List.prefix_cons_iff, List.prefix_nil] at own
    rcases own with rfl | ⟨_, rfl, rfl | ⟨_, rfl, rfl⟩⟩
    · exact Or.inl ⟨rfl, noQualifier Nat.zero_lt_one, noAnswer Nat.zero_lt_two⟩
    · exact Or.inr (Or.inl ⟨rfl, noAnswer Nat.one_lt_two⟩)
    · exact Or.inr (Or.inr rfl)
  · rintro (⟨rfl, noQualifier, noAnswer⟩ | ⟨rfl, noAnswer⟩ | rfl)
    · exact .array List.nil_prefix (fun _ => noQualifier) (fun _ => noAnswer)
    · exact .array ⟨[_], rfl⟩ nofun (fun _ => noAnswer)
    · exact .array ⟨[], rfl⟩ nofun nofun

/-- Data of this form stand for some configuration, and no others do. -/
theorem exists_writtenAs_iff
    {j : Json} :
    (∃ c : Config, c.WrittenAs j) ↔ IsConfiguration j := by
  constructor
  · rintro ⟨c, written⟩
    cases written with
    | object own once _ _ =>
        refine .object (fun e he => ?_) once
        rcases mem_entries_iff.mp (own e he) with ⟨key, value⟩ | ⟨key, value⟩
        · exact Or.inl ⟨key, isQualifier_iff.mpr ⟨_, value⟩⟩
        · exact Or.inr ⟨key, _, value⟩
    | array own noQualifier noAnswer =>
        rcases writtenAs_array_iff.mp (.array own noQualifier noAnswer) with
          ⟨rfl, -⟩ | ⟨rfl, -⟩ | rfl
        · exact .empty
        · exact .qualifier (isQualifier_iff.mpr ⟨_, rfl⟩)
        · exact .both (isQualifier_iff.mpr ⟨_, rfl⟩) _
  · intro h
    cases h with
    | @object es known once =>
        have qualifiers (j : Json) (he : ("prefix", j) ∈ es) : ∃ q, j = qualifierJson q := by
          rcases known _ he with ⟨-, isQualifier⟩ | ⟨same, -⟩
          · exact isQualifier_iff.mp isQualifier
          · simp at same
        have answers (j : Json) (he : ("prefixSelf", j) ∈ es) : ∃ b, j = .boolean b := by
          rcases known _ he with ⟨same, -⟩ | ⟨-, isAnswer⟩
          · simp at same
          · exact isAnswer
        obtain ⟨q, writtenQ, absentQ⟩ := exists_part qualifierJson none once qualifiers
        obtain ⟨b, writtenB, absentB⟩ := exists_part Json.boolean false once answers
        refine ⟨⟨q, b⟩, .object ?_ once absentQ absentB⟩
        rintro ⟨k, j⟩ he
        rw [mem_entries_iff]
        rcases known _ he with ⟨rfl, -⟩ | ⟨rfl, -⟩
        · exact Or.inl ⟨rfl, writtenQ j he⟩
        · exact Or.inr ⟨rfl, writtenB j he⟩
    | empty => exact ⟨⟨none, false⟩, writtenAs_array_iff.mpr (Or.inl ⟨rfl, rfl, rfl⟩)⟩
    | qualifier isQualifier =>
        obtain ⟨q, rfl⟩ := isQualifier_iff.mp isQualifier
        exact ⟨⟨q, false⟩, writtenAs_array_iff.mpr (Or.inr (Or.inl ⟨rfl, rfl⟩))⟩
    | both isQualifier b =>
        obtain ⟨q, rfl⟩ := isQualifier_iff.mp isQualifier
        exact ⟨⟨q, b⟩, writtenAs_array_iff.mpr (Or.inr (Or.inr rfl))⟩

/-- The order of the entries says nothing. -/
theorem WrittenAs.perm
    (h : c.WrittenAs (.object es))
    (order : es.Perm fs) :
    c.WrittenAs (.object fs) := by
  obtain ⟨own, once, noQualifier, noAnswer⟩ := h
  have keys := order.map Prod.fst
  exact .object (fun e he => own e (order.mem_iff.mpr he)) (keys.nodup_iff.mp once)
    (fun h => noQualifier (mt keys.mem_iff.mp h)) (fun h => noAnswer (mt keys.mem_iff.mp h))

end Forms

section Reader

variable {c : Config} {es : List (String × Json)}

theorem qualifierOfJson?_eq_some_iff
    {j : Json}
    {q : Option String} :
    qualifierOfJson? j = some q ↔ j = qualifierJson q := by
  cases j <;> cases q <;> simp [qualifierOfJson?, qualifierJson, eq_comm]

theorem qualifyRootOfJson?_eq_some_iff
    {j : Json}
    {b : Bool} :
    qualifyRootOfJson? j = some b ↔ j = .boolean b := by
  cases j <;> simp [qualifyRootOfJson?]

theorem entry?_eq_some_iff
    {α : Type}
    {k : String}
    {read : Json → Option α}
    {default a : α} :
    entry? k read default es = some a ↔
      (es.map Prod.fst).count k ≤ 1 ∧ (∀ j, (k, j) ∈ es → read j = some a) ∧
        (k ∉ es.map Prod.fst → a = default) := by
  have count : (es.map Prod.fst).count k = (es.filter fun e => e.1 == k).length := by
    rw [List.count, List.countP_map, List.countP_eq_length_filter]
    rfl
  have mem (j : Json) : (k, j) ∈ es ↔ (k, j) ∈ es.filter fun e => e.1 == k := by
    simp [List.mem_filter]
  have absent : k ∉ es.map Prod.fst ↔ (es.filter fun e => e.1 == k) = [] := by
    rw [← List.count_eq_zero, count, List.length_eq_zero_iff]
  have keyed : ∀ e ∈ es.filter fun e => e.1 == k, e.1 = k := by
    simp [List.mem_filter]
  unfold entry?
  rw [count, absent]
  simp only [mem]
  generalize (es.filter fun e => e.1 == k) = found at keyed
  match found with
  | [] => simpa using eq_comm
  | [(k', j)] =>
      obtain rfl : k' = k := keyed _ (List.mem_singleton.mpr rfl)
      simp
  | _ :: _ :: _ => simp

theorem ofJson?_object
    (es : List (String × Json)) :
    ofJson? (.object es) = some c ↔
      (∀ e ∈ es, e.1 = "prefix" ∨ e.1 = "prefixSelf") ∧
        entry? "prefix" qualifierOfJson? none es = some c.qualifier ∧
          entry? "prefixSelf" qualifyRootOfJson? false es = some c.qualifyRoot := by
  obtain ⟨q, b⟩ := c
  simp only [ofJson?, qualifierKey, qualifyRootKey, Option.bind_eq_bind, Option.pure_def,
    Option.ite_none_right_eq_some, List.all_eq_true, Bool.or_eq_true, beq_iff_eq,
    Option.bind_eq_some_iff, Option.some.injEq, mk.injEq, exists_eq_right_right]

theorem ofJson?_object_eq_some_iff :
    ofJson? (.object es) = some c ↔ c.WrittenAs (.object es) := by
  rw [ofJson?_object, entry?_eq_some_iff, entry?_eq_some_iff]
  simp only [qualifierOfJson?_eq_some_iff, qualifyRootOfJson?_eq_some_iff]
  constructor
  · rintro ⟨known, ⟨onceQ, writtenQ, absentQ⟩, onceB, writtenB, absentB⟩
    refine .object ?_ (List.nodup_iff_count_le_one.mpr fun k => ?_) absentQ absentB
    · rintro ⟨k, j⟩ he
      rw [mem_entries_iff]
      rcases known _ he with rfl | rfl
      · exact Or.inl ⟨rfl, writtenQ j he⟩
      · exact Or.inr ⟨rfl, writtenB j he⟩
    · by_cases present : k ∈ es.map Prod.fst
      · obtain ⟨e, he, rfl⟩ := List.mem_map.mp present
        rcases known e he with same | same <;> rwa [same]
      · rw [List.count_eq_zero_of_not_mem present]
        exact Nat.zero_le 1
  · rintro ⟨⟩
    rename_i own once noQualifier noAnswer
    have counts := List.nodup_iff_count_le_one.mp once
    refine ⟨fun e he => (mem_entries_iff.mp (own e he)).imp And.left And.left,
      ⟨counts _, fun j he => ?_, noQualifier⟩, counts _, fun j he => ?_, noAnswer⟩
    · rcases mem_entries_iff.mp (own _ he) with ⟨-, value⟩ | ⟨same, -⟩
      · exact value
      · exact absurd same (by decide)
    · rcases mem_entries_iff.mp (own _ he) with ⟨same, -⟩ | ⟨-, value⟩
      · exact absurd same (by decide)
      · exact value

theorem ofJson?_array_eq_some_iff
    {xs : List Json} :
    ofJson? (.array xs) = some c ↔ c.WrittenAs (.array xs) := by
  obtain ⟨q, b⟩ := c
  rw [writtenAs_array_iff]
  match xs with
  | [] => simp [ofJson?, @eq_comm _ none, @eq_comm _ false]
  | [x] =>
      simp [ofJson?, Option.bind_eq_some_iff, qualifierOfJson?_eq_some_iff, @eq_comm _ false]
  | [x, y] =>
      simp [ofJson?, Option.bind_eq_some_iff, qualifierOfJson?_eq_some_iff,
        qualifyRootOfJson?_eq_some_iff]
  | _ :: _ :: _ :: _ => simp [ofJson?]

/-- The data is read as the configuration that it stands for. -/
theorem ofJson?_eq_some_iff
    {j : Json} :
    ofJson? j = some c ↔ c.WrittenAs j := by
  cases j with
  | object es => exact ofJson?_object_eq_some_iff
  | array xs => exact ofJson?_array_eq_some_iff
  | _ => exact ⟨nofun, nofun⟩

theorem parse?_eq_some_iff
    {s : String} :
    parse? s = some c ↔ ∃ j : Json, j.SpelledBy s ∧ c.WrittenAs j := by
  simp only [parse?, Option.bind_eq_some_iff, Json.parse?_eq_some_iff, ofJson?_eq_some_iff]

/-- A text that spells this data is read as the data is. -/
theorem parse?_of_spelledBy
    {s : String}
    {j : Json}
    (h : j.SpelledBy s) :
    parse? s = ofJson? j := by
  rw [parse?, Json.parse?_eq_some_iff.mpr h, Option.bind_some]

theorem ofJson?_perm
    {fs : List (String × Json)}
    (order : es.Perm fs) :
    ofJson? (.object es) = ofJson? (.object fs) := by
  refine Option.ext fun c => ?_
  rw [ofJson?_eq_some_iff, ofJson?_eq_some_iff]
  exact ⟨fun h => h.perm order, fun h => h.perm order.symm⟩

end Reader

/-- Configurations are read exactly.  A text is read as one just if the data that it spells is an
object with known entries, each once at most, or an array of a prefix and an answer or the first
of them; it is read as the configuration that this data stands for, with defaults for what is
left out.  The order of the entries says nothing, and an entry that is unknown, of the wrong type
or repeated is refused.  What is read leads to the same vocabulary as its normal form. -/
theorem parse_is_exact
    (s : String) :
    (∀ j : Json, j.SpelledBy s → ((∃ c, parse? s = some c) ↔ IsConfiguration j)) ∧
      (∀ c, parse? s = some c ↔ ∃ j : Json, j.SpelledBy s ∧ c.WrittenAs j) ∧
      (∀ t es fs, (Json.object es).SpelledBy s → (Json.object fs).SpelledBy t → es.Perm fs →
        parse? s = parse? t) ∧
      (∀ es, (Json.object es).SpelledBy s →
        (∃ e ∈ es, ¬ IsEntry e) ∨ ¬ (es.map Prod.fst).Nodup → parse? s = none) ∧
      ∀ c, parse? s = some c →
        Vocabulary.ofConfig c = Vocabulary.ofConfig c.normalize ∧
          c.normalize.normalize = c.normalize ∧ c.effectiveQualifier = c.normalize.qualifier := by
  refine ⟨fun j here => ?_, fun c => parse?_eq_some_iff, fun t es fs here there order => ?_,
    fun es here fault => ?_, fun c _ => ?_⟩
  · rw [parse?_of_spelledBy here]
    simp only [ofJson?_eq_some_iff, exists_writtenAs_iff]
  · rw [parse?_of_spelledBy here, parse?_of_spelledBy there, ofJson?_perm order]
  · rw [parse?_of_spelledBy here, Option.eq_none_iff_forall_ne_some]
    intro c read
    cases exists_writtenAs_iff.mp ⟨c, ofJson?_eq_some_iff.mp read⟩ with
    | object known once =>
        rcases fault with ⟨e, he, noEntry⟩ | repeated
        · exact noEntry (known e he)
        · exact repeated once
  · exact ⟨(Vocabulary.ofConfig_normalize c).symm, normalize_normalize c, by rw [normalize_eq]⟩

/-- An empty prefix under an escaped key, behind the other entry. -/
def escapedText : String :=
  "\x7b\"prefixSelf\": true, \"pre\\u0066ix\": \"\"\x7d"

/-- The same entries in order and without escapes. -/
def plainText : String :=
  "\x7b \"prefix\": \"\", \"prefixSelf\": true \x7d"

/-- A key that no configuration has. -/
def misspeltText : String :=
  "\x7b \"prefix_self\": true \x7d"

/-- Both texts with an empty prefix are read, and what is read has no prefix. -/
theorem parse_escapedText_exact :
    parse? escapedText = some ⟨some "", true⟩ ∧ parse? escapedText = parse? plainText ∧
      parse? misspeltText = none ∧
      Vocabulary.ofConfig ⟨some "", true⟩ = Vocabulary.ofConfig unqualified ∧
      effectiveQualifier ⟨some "", true⟩ = none := by
  have escaped : (Json.object
      [("prefixSelf", .boolean true), ("prefix", .string "")]).SpelledBy escapedText :=
    Json.parse?_eq_some_iff.mp (by cbv)
  have plain : (Json.object
      [("prefix", .string ""), ("prefixSelf", .boolean true)]).SpelledBy plainText :=
    Json.parse?_eq_some_iff.mp (by cbv)
  have misspelt : (Json.object [("prefix_self", .boolean true)]).SpelledBy misspeltText :=
    Json.parse?_eq_some_iff.mp (by cbv)
  obtain ⟨_, read, order, _, normal⟩ := parse_is_exact escapedText
  obtain ⟨_, _, _, refused, _⟩ := parse_is_exact misspeltText
  have written : WrittenAs ⟨some "", true⟩
      (.object [("prefixSelf", .boolean true), ("prefix", .string "")]) :=
    .object (by simp [entries, qualifierJson]) (by decide) (by decide) (by decide)
  have parsed := (read ⟨some "", true⟩).mpr ⟨_, escaped, written⟩
  obtain ⟨same, _, qualifier⟩ := normal _ parsed
  refine ⟨parsed, order _ _ _ escaped plain (.swap _ _ _), refused _ misspelt (Or.inl ?_), same,
    qualifier⟩
  refine ⟨_, List.mem_singleton.mpr rfl, ?_⟩
  rintro (⟨key, -⟩ | ⟨key, -⟩) <;> exact absurd key (by decide)

end Config

end Supergraph
