import Supergraph.CommandLine
import Supergraph.Proofs.Composition.Configuration
import Supergraph.Proofs.Composition.Lawful
import Supergraph.Proofs.Composition.ReadBack

/-!
# The command on its own output

The command writes a composed schema as text that it can read again.  Run on that text with
the same configuration, it writes the same text; with another one it refuses; and if the
vocabulary is to be hidden it writes what it would have written in the first place, just if no
spare scalar is extended and the order of extensions does not come from what is hidden
(`compose_again`).  Without a root of its own, a schema may be written as a text that is refused
(`rootless_not_again`).
-/

namespace Supergraph

namespace CommandLine.Arguments

variable {a b : Arguments} {x y : String} {p : Schema} {v : Vocabulary}

section Outcomes

variable {g : Target} {r : Registration} {e : FusionError}

/-- A text that is no schema is not composed. -/
theorem compose_of_unread
    (unread : (Schema.parse x).toOption = none) :
    a.compose x = .diagnostics := by
  cases parsed : Schema.parse x with
  | error e => simp only [compose, parsed]
  | ok p =>
      rw [parsed] at unread
      cases unread

/-- The command fails with what a composition fails with. -/
theorem compose_of_error
    (parsed : Schema.parse x = .ok p)
    (named : Vocabulary.ofConfig a.config = .ok v)
    (composed : (Target.ofSchema p).compose v .builtIn = (g, .error e)) :
    a.compose x = .failed e.message := by
  simp only [compose, parsed, named, composed]

variable (parsed : Schema.parse x = .ok p) (named : Vocabulary.ofConfig a.config = .ok v)
  (composed : (Target.ofSchema p).compose v .builtIn = (g, .ok r))

include parsed named composed

/-- A vocabulary that is to be hidden is not validated. -/
theorem compose_of_hidden
    (hides : a.hideFusion = true) :
    a.compose x = .written g.elide.text := by
  simp only [compose, parsed, named, composed, hides, if_true]

theorem compose_of_valid
    (shown : a.hideFusion = false)
    (valid : g.schema.isValid = true) :
    a.compose x = .written g.schema.settle.text := by
  simp only [compose, parsed, named, composed, shown, Schema.validated?, valid, if_true,
    Bool.false_eq_true, if_false]

theorem compose_of_invalid
    (shown : a.hideFusion = false)
    (invalid : g.schema.isValid = false) :
    a.compose x = .diagnostics := by
  simp only [compose, parsed, named, composed, shown, Schema.validated?, invalid,
    Bool.false_eq_true, if_false]

end Outcomes

/-- What happened when the command has written a schema with its vocabulary. -/
theorem exists_of_written
    (parsed : Schema.parse x = .ok p)
    (named : Vocabulary.ofConfig a.config = .ok v)
    (shown : a.hideFusion = false)
    (written : a.compose x = .written y) :
    ∃ g r, (Target.ofSchema p).compose v .builtIn = (g, .ok r) ∧
      g.schema.isValid = true ∧ y = g.schema.settle.text := by
  cases composed : (Target.ofSchema p).compose v .builtIn with
  | mk g outcome =>
      cases outcome with
      | error e =>
          rw [compose_of_error parsed named composed] at written
          cases written
      | ok r =>
          cases valid : g.schema.isValid with
          | false =>
              rw [compose_of_invalid parsed named composed shown valid] at written
              cases written
          | true =>
              rw [compose_of_valid parsed named composed shown valid] at written
              cases written
              exact ⟨g, r, rfl, valid, rfl⟩

/-- The vocabulary of the arguments has their configuration. -/
theorem config_of_named
    (named : Vocabulary.ofConfig a.config = .ok v) :
    v.config = a.config :=
  (Vocabulary.config_of_ofConfig named).trans (Config.normalize_normalize _)

/-- The schema that the command composes, without a look at its outcome. -/
def composed (v : Vocabulary) (p : Schema) : Target :=
  ((Target.ofSchema p).compose v .builtIn).1

/-- Hiding the vocabulary, on the text `x` and on what is written of its composition.  The
definitions are the same just if no spare scalar is extended, and the texts just if, besides,
what is hidden has no part in the order of extensions. -/
theorem compose_hidden_again
    {g : Target}
    {r : Registration}
    (parsed : Schema.parse x = .ok p)
    (unrecorded : (Target.ofSchema p).config = none)
    (rooted : p.definition.rootsFrom .definition ≠ [])
    (named : Vocabulary.ofConfig b.config = .ok v)
    (success : (Target.ofSchema p).compose v .builtIn = (g, .ok r))
    (hides : b.hideFusion = true) :
    ∃ s : Schema, b.compose g.schema.settle.text = .written s.text ∧
      b.compose x = .written g.elide.text ∧
      (s.toDefinitions.Perm g.elide.toDefinitions ↔
        g.schema.LeavesSpare v.typeNames.contains v.directiveNames.contains) ∧
      (b.compose g.schema.settle.text = b.compose x ↔
        g.schema.LeavesSpare v.typeNames.contains v.directiveNames.contains ∧
          g.schema.ElidesAlike v.typeNames.contains v.directiveNames.contains) := by
  obtain ⟨q, g', reread, recorded, again, back, types, directives⟩ :=
    Target.recompose_text parsed unrecorded rooted success
  have composed := Target.composed_of_compose success
  have hiddenTypes : v.typeNames.contains = g.isMarkedType := by
    funext n
    rw [Bool.eq_iff_iff, composed.markedTypes, Target.isMarkedType_of_unrecorded unrecorded]
    simp
  have hidden : v.directiveNames.contains = g.isMarkedDirective := by
    funext n
    rw [Bool.eq_iff_iff, composed.markedDirectives,
      Target.isMarkedDirective_of_unrecorded unrecorded]
    simp
  have elided : g'.elide = g'.schema.elide g.isMarkedType g.isMarkedDirective := by
    rw [Target.elide, funext types, funext directives]
  have onText := compose_of_hidden parsed named success hides
  have onOutput := compose_of_hidden reread named again hides
  have readable : ∀ {z : String} {p : Schema} {g : Target} {r : Registration},
      Schema.parse z = .ok p → (Target.ofSchema p).compose v .builtIn = (g, .ok r) →
      g.elide.Readable := by
    intro z p g r parsed success
    refine (Target.readable_compose ?_ Templates.readable_builtIn success).elide _
    rw [Target.schema_ofSchema]
    exact Schema.readable_of_parse parsed
  rw [hiddenTypes, hidden]
  refine ⟨g'.elide, onOutput, onText, ?_, ?_⟩
  · rw [elided]
    exact back.toDefinitions_elide_perm_iff _ _
  · rw [onOutput, onText, Outcome.written.injEq,
      Schema.text_inj (readable reread again) (readable parsed success), elided]
    exact back.toDefinitions_elide_eq_iff _ _

/-- **The command on its own output.**  Let the command have written the text `y` of a schema
with its vocabulary, that of a schema with the text `x`, without a record but with a root in
its definition.  On `y` it writes `y` again, with the same configuration, and it refuses every
other configuration.  If it is to hide the vocabulary, it writes the same definitions on `y` as
on `x` just if no spare scalar is extended, and the same text just if, besides, what it hides
has no part in the order of extensions. -/
theorem compose_again
    (parsed : Schema.parse x = .ok p)
    (unrecorded : (Target.ofSchema p).config = none)
    (rooted : p.definition.rootsFrom .definition ≠ [])
    (named : Vocabulary.ofConfig a.config = .ok v)
    (shown : a.hideFusion = false)
    (written : a.compose x = .written y) :
    (∀ b : Arguments, b.config = a.config → b.hideFusion = false → b.compose y = .written y) ∧
      (∀ b : Arguments, b.config = a.config → b.hideFusion = true →
        ∃ s : Schema, b.compose y = .written s.text ∧
          b.compose x = .written (composed v p).elide.text ∧
          (s.toDefinitions.Perm (composed v p).elide.toDefinitions ↔
            (composed v p).schema.LeavesSpare v.typeNames.contains v.directiveNames.contains) ∧
          (b.compose y = b.compose x ↔
            (composed v p).schema.LeavesSpare v.typeNames.contains v.directiveNames.contains ∧
              (composed v p).schema.ElidesAlike v.typeNames.contains
                v.directiveNames.contains)) ∧
      ∀ (b : Arguments) (w : Vocabulary), Vocabulary.ofConfig b.config = .ok w →
        b.config ≠ a.config →
        b.compose y = .failed (FusionError.configConflict a.config b.config).message := by
  obtain ⟨g, r, success, valid, rfl⟩ := exists_of_written parsed named shown written
  obtain ⟨q, g', reread, recorded, again, back, -⟩ :=
    Target.recompose_text parsed unrecorded rooted success
  obtain ⟨arranged, stacked, introspection⟩ := Schema.arranged_of_parse parsed
  have arranged := (Target.arranged_compose arranged stacked unrecorded success).1
  have scalars : ∀ n ∈ BuiltIn.scalarNames, n ∈ g.schema.types.keys := fun n hn =>
    arranged.keys (Schema.mem_builtIn_keys_iff.mpr (Or.inr hn))
  have same : composed v p = g := congrArg Prod.fst success
  refine ⟨fun b asked shown => ?_, fun b asked hides => ?_, fun b w named' other => ?_⟩
  · have introspection' : ∀ n ∈ g.schema.introspection, n ∈ BuiltIn.introspectionNames := by
      rw [← same, composed, Target.introspection_compose, Target.schema_ofSchema]
      exact introspection
    have valid' := back.isValid scalars introspection' valid
    rw [compose_of_valid reread (asked ▸ named) again shown valid']
    simp only [Schema.text, back.toDefinitions_settle scalars]
  · rw [same]
    exact compose_hidden_again parsed unrecorded rooted (asked ▸ named) success hides
  · have conflict : (Target.ofSchema q).compose w .builtIn =
        (Target.ofSchema q, .error (.configConflict v.config w.config)) := by
      refine Target.compose_of_conflict .builtIn recorded ?_
      rw [config_of_named named, config_of_named named']
      exact other
    rw [compose_of_error reread named' conflict, config_of_named named, config_of_named named']

section Samples

/-- The arguments that ask for the vocabulary without a prefix. -/
def unprefixed : Arguments where
  path := "-"
  qualifier := none
  qualifyRoot := false
  hideFusion := false

/-- The arguments that ask for the same vocabulary and hide it. -/
def unprefixedHidden : Arguments :=
  { unprefixed with hideFusion := true }

/-- The arguments that ask for the vocabulary under a prefix. -/
def prefixed : Arguments :=
  { unprefixed with qualifier := some "p" }

theorem ofConfig_unprefixed : Vocabulary.ofConfig unprefixed.config = .ok .bare :=
  rfl

section Unprefixed

variable (parsed : Schema.parse x = .ok p)
  (success : (Target.ofSchema p).compose .bare .builtIn =
    (Target.composedBare p, .ok ⟨.bare, Vocabulary.bare.placeholders⟩))

include parsed success

theorem compose_unprefixed
    (valid : (Target.composedBare p).schema.isValid = true) :
    unprefixed.compose x = .written (Target.composedBare p).schema.settle.text :=
  compose_of_valid parsed ofConfig_unprefixed success rfl valid

/-- With the vocabulary hidden, a text and what is written of it are not alike if a spare scalar
is extended, or if what is hidden has a part in the order of extensions. -/
theorem unprefixedHidden_not_alike
    (unrecorded : (Target.ofSchema p).config = none)
    (rooted : p.definition.rootsFrom .definition ≠ [])
    (parts : ¬ ((Target.composedBare p).schema.LeavesSpare Vocabulary.bare.typeNames.contains
          Vocabulary.bare.directiveNames.contains ∧
        (Target.composedBare p).schema.ElidesAlike Vocabulary.bare.typeNames.contains
          Vocabulary.bare.directiveNames.contains)) :
    unprefixedHidden.compose (Target.composedBare p).schema.settle.text ≠
      unprefixedHidden.compose x := by
  have named : Vocabulary.ofConfig unprefixedHidden.config = .ok .bare := ofConfig_unprefixed
  obtain ⟨s, -, -, -, alike⟩ :=
    compose_hidden_again parsed unrecorded rooted named success rfl
  exact fun same => parts (alike.mp same)

end Unprefixed

/-- What is hidden of the schema with one field has no part in the order of extensions. -/
theorem oneField_again :
    unprefixed.compose (Target.oneFieldText BuiltIn.int) =
        .written Target.composedField.schema.settle.text ∧
      unprefixed.compose Target.composedField.schema.settle.text =
        .written Target.composedField.schema.settle.text ∧
      unprefixedHidden.compose Target.composedField.schema.settle.text =
        unprefixedHidden.compose (Target.oneFieldText BuiltIn.int) ∧
      prefixed.compose Target.composedField.schema.settle.text =
        .failed (FusionError.configConflict unprefixed.config prefixed.config).message := by
  have parsed : Schema.parse (Target.oneFieldText BuiltIn.int) =
      .ok (Target.oneField BuiltIn.int) := by
    decide +kernel
  have written := compose_unprefixed parsed Target.compose_oneField Target.isValid_composedField
  obtain ⟨again, hide, conflict⟩ :=
    compose_again parsed rfl (by decide) ofConfig_unprefixed rfl written
  have spare : Target.composedField.schema.LeavesSpare Vocabulary.bare.typeNames.contains
      Vocabulary.bare.directiveNames.contains := by
    have unextended : ∀ t ∈ Target.composedField.schema.types.items,
        (t.elide Vocabulary.bare.directiveNames.contains).extensions = [] := by
      decide +kernel
    exact fun t ht _ _ => unextended t ht
  have order : Target.composedField.schema.ElidesAlike Vocabulary.bare.typeNames.contains
      Vocabulary.bare.directiveNames.contains := by
    refine Schema.elidesAlike_of_definition _ ?_ ?_ <;> decide +kernel
  obtain ⟨s, -, -, -, alike⟩ := hide unprefixedHidden rfl rfl
  exact ⟨written, again _ rfl rfl, alike.mpr ⟨spare, order⟩,
    conflict prefixed _ rfl (by decide)⟩

/-- The text of a schema with a type that is extended twice, the second time by an application
of the vocabulary, too. -/
def resolvedText : String :=
  "type Query \x7b a: Int \x7d extend type Query \x7b b: Int \x7d " ++
    "extend type Query @resolver(subgraph: \"s\", select: \"a\") \x7b c: Int \x7d"

/-- A field without arguments. -/
def plainField (n : Name) : Field :=
  ⟨none, n, [], .named BuiltIn.int false, []⟩

/-- The schema with this text. -/
def resolvedQuery : Schema :=
  { BuiltIn.schema.put (.type
      { description := none
        name := Target.queryType
        builtIn := false
        directives := [⟨.extension 1,
          { name := Vocabulary.bare.directiveName .resolver
            arguments :=
              [⟨ArgumentName.subgraph, .string "s"⟩, ⟨ArgumentName.select, .string "a"⟩] }⟩]
        body := .object .empty
          (((Table.empty.put ⟨.definition, plainField Target.queryField⟩).put
            ⟨.extension 0, plainField ⟨"b", by decide⟩⟩).put
            ⟨.extension 1, plainField ⟨"c", by decide⟩⟩) }) with
    definition := { SchemaDef.empty with query := some ⟨.definition, Target.queryType⟩ } }

/-- With the vocabulary, the second extension comes first, since types are written with what is
applied to them in front.  Read again it stays the first one, and it still is when the
vocabulary is hidden. -/
theorem resolvedText_not_alike :
    Schema.parse resolvedText = .ok resolvedQuery ∧
      (Target.ofSchema resolvedQuery).config = none ∧
      ∃ y, unprefixed.compose resolvedText = .written y ∧
        unprefixedHidden.compose y ≠ unprefixedHidden.compose resolvedText := by
  have parsed : Schema.parse resolvedText = .ok resolvedQuery := by
    decide +kernel
  have composed : (Target.ofSchema resolvedQuery).compose .bare .builtIn =
      (Target.composedBare resolvedQuery, .ok ⟨.bare, Vocabulary.bare.placeholders⟩) :=
    Prod.ext rfl rfl
  have written := compose_unprefixed parsed composed (by decide +kernel)
  have moved : ∃ t ∈ (Target.composedBare resolvedQuery).schema.types.items,
      Vocabulary.bare.typeNames.contains t.name = false ∧
        ¬ (t.elide Vocabulary.bare.directiveNames.contains).GroupsAlike t.extensions := by
    decide +kernel
  obtain ⟨t, ht, shown, moved⟩ := moved
  exact ⟨parsed, rfl, _, written, unprefixedHidden_not_alike parsed composed rfl (by decide)
    fun parts => moved (parts.2.types t ht shown)⟩

/-- The text of a schema in which a scalar of the language is extended that nothing refers
to. -/
def notedFloatText : String :=
  "directive @note(level: Int) on SCALAR extend scalar Float @note(level: 1) " ++
    "type Query { a: Int }"

/-- The schema with this text. -/
def notedFloat : Schema :=
  ((Target.oneField BuiltIn.int).put (.directive Target.noteDef)).put
    (.type { BuiltIn.scalar BuiltIn.float with
      directives := [⟨.extension 0, Target.noteApplication⟩] })

/-- Such an extension is written if the vocabulary is hidden, but not if it is shown. -/
theorem notedFloatText_not_alike :
    Schema.parse notedFloatText = .ok notedFloat ∧
      (Target.ofSchema notedFloat).config = none ∧
      ∃ y, unprefixed.compose notedFloatText = .written y ∧
        unprefixedHidden.compose y ≠ unprefixedHidden.compose notedFloatText := by
  have parsed : Schema.parse notedFloatText = .ok notedFloat := by
    decide +kernel
  have composed : (Target.ofSchema notedFloat).compose .bare .builtIn =
      (Target.composedBare notedFloat, .ok ⟨.bare, Vocabulary.bare.placeholders⟩) :=
    Prod.ext rfl rfl
  have written := compose_unprefixed parsed composed (by decide +kernel)
  have extended : ∃ t ∈ (Target.composedBare notedFloat).schema.types.items,
      Vocabulary.bare.typeNames.contains t.name = false ∧
        (t.isBuiltInScalar = true ∧
          t.name ∉ (Target.composedBare notedFloat).schema.referredTypes) ∧
        (t.elide Vocabulary.bare.directiveNames.contains).extensions ≠ [] := by
    decide +kernel
  obtain ⟨t, ht, shown, spare, extended⟩ := extended
  exact ⟨parsed, rfl, _, written, unprefixedHidden_not_alike parsed composed rfl (by decide)
    fun parts => extended (parts.1 t ht shown spare)⟩

/-- The text of a schema that has its root in an extension only. -/
def rootlessText : String :=
  "schema extend schema { query: Query } type Query { a: Int }"

/-- The schema with this text. -/
def rootless : Schema :=
  { Target.oneField BuiltIn.int with
    definition := { SchemaDef.empty with query := some ⟨.extension 0, Target.queryType⟩ } }

/-- The definition of such a schema is not written, and neither is the record.  What is written
is refused. -/
theorem rootless_not_again :
    Schema.parse rootlessText = .ok rootless ∧
      (Target.ofSchema rootless).config = none ∧
      ∃ y, unprefixed.compose rootlessText = .written y ∧
        unprefixed.compose y = .diagnostics := by
  have parsed : Schema.parse rootlessText = .ok rootless := by
    decide +kernel
  have composed : (Target.ofSchema rootless).compose .bare .builtIn =
      (Target.composedBare rootless, .ok ⟨.bare, Vocabulary.bare.placeholders⟩) :=
    Prod.ext rfl rfl
  have written := compose_unprefixed parsed composed (by decide +kernel)
  have refused : (Schema.ofDefinitions
      (Target.composedBare rootless).schema.settle.toDefinitions).toOption = none := by
    decide +kernel
  refine ⟨parsed, rfl, _, written, ?_⟩
  rw [← Target.parse_text_settle parsed composed] at refused
  exact compose_of_unread refused

end Samples

end CommandLine.Arguments

end Supergraph
