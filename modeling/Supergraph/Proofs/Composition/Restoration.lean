import Supergraph.Proofs.Composition.Configuration
import Supergraph.Proofs.Composition.Frame
import Supergraph.Proofs.Composition.Marks

/-!
# Composing what was composed before

Which members of a schema belong to an earlier composition is decided twice: recovery marks
them, and a composition is refused over those that are not marked.  The two go by the same
names.  So a schema with a record is never refused to the vocabulary that it records, however
much of it is missing or was altered since, and the composition puts every member back to its
definition; to any other vocabulary it is always refused.  A schema without a record is
refused to the vocabularies that it has a member of (`recovery_agrees`).
-/

namespace Supergraph

namespace Schema

/-- The schema has a type or a directive under a name of the vocabulary. -/
def HasMemberOf (s : Schema) (v : Vocabulary) : Prop :=
  (∃ n ∈ v.typeNames, n ∈ s.types.keys) ∨ ∃ n ∈ v.directiveNames, n ∈ s.directives.keys

/-- The schema that defines nothing. -/
def blank : Schema where
  definition := .empty
  directives := .empty
  types := .empty
  introspection := []
  introspection_sub := nofun

end Schema

namespace Target

variable {s : Schema} {f g : Target} {v : Vocabulary} {templates : Templates}

section Refusals

/-- The recorded vocabulary goes ahead: whatever stands under its names is marked. -/
theorem MarksRecorded.ahead_of_recorded
    (h : f.MarksRecorded)
    (recorded : f.config = some v.config) :
    f.refusal? v = none := by
  have marks := h.marksOnly recorded
  refine refusal?_eq_none_iff.mpr ⟨?_, ?_, ?_⟩
  · intro c hc
    rw [recorded, Option.some_inj] at hc
    exact hc.symm
  · intro n own present
    exact (marks.types n).mpr ⟨own, present⟩
  · intro n own present
    exact (marks.directives n).mpr ⟨own, present⟩

/-- Without a record nothing is marked, so that every member under a name of the vocabulary
stands in its way. -/
theorem MarksRecorded.ahead_iff_of_unrecorded
    (h : f.MarksRecorded)
    (unrecorded : f.config = none) :
    f.refusal? v = none ↔ ¬ f.schema.HasMemberOf v := by
  obtain ⟨noType, noDirective⟩ := h.unmarked unrecorded
  rw [refusal?_eq_none_iff]
  constructor
  · rintro ⟨-, marksTypes, marksDirectives⟩ (⟨n, own, present⟩ | ⟨n, own, present⟩)
    · exact noType n (marksTypes n own present)
    · exact noDirective n (marksDirectives n own present)
  · intro free
    refine ⟨?_, ?_, ?_⟩
    · intro c hc
      rw [unrecorded] at hc
      cases hc
    · intro n own present
      exact absurd (Or.inl ⟨n, own, present⟩) free
    · intro n own present
      exact absurd (Or.inr ⟨n, own, present⟩) free

end Refusals

section BuiltInTemplates

theorem mem_placeholderNames_of_builtInDef
    (t : TemplateName) :
    ∀ a ∈ (Templates.builtInDef t).arguments,
      a.type.innermost ∈ Vocabulary.placeholderNames := by
  cases t <;> decide

/-- The built-in templates can be used with every vocabulary. -/
theorem not_templateFault_builtIn
    (v : Vocabulary)
    (request : TemplateName × FusionDirective)
    (e : FusionError) :
    ¬ TemplateFault v .builtIn request e := by
  intro fault
  cases fault with
  | argument first =>
      obtain ⟨a, ha, ⟨unknown⟩⟩ := first.exists_mem
      exact unknown (mem_placeholderNames_of_builtInDef request.1 a ha)

/-- With the built-in templates nothing but the scalars of the language can go wrong. -/
theorem exists_compose_builtIn
    (ahead : f.refusal? v = none)
    (scalars : ∀ n ∈ Vocabulary.builtInScalars, ∀ t, f.schema.type? n = some t → t.kind = .scalar) :
    ∃ g, f.compose v .builtIn = (g, .ok ⟨v, v.placeholders⟩) := by
  have passed : (f.ensureScalars Vocabulary.builtInScalars).2 = none := by
    refine ensureScalars_snd_eq_none_iff.mpr ?_
    rintro n hn e ⟨defined, other⟩
    exact other (scalars n hn _ defined)
  have usable : ∀ request ∈ FusionDirective.templated, ∀ e, ¬ TemplateFault v .builtIn request e :=
    fun request _ => not_templateFault_builtIn v request
  refine ⟨(f.compose v .builtIn).1, Prod.ext rfl ?_⟩
  rw [compose_snd_of_passed ahead passed, insertTemplated_snd_eq_none_iff.mpr usable]

/-- A composition with the built-in templates has made this of a schema without a record. -/
def FreshlyComposed (v : Vocabulary) (g : Target) : Prop :=
  ∃ s r, (ofSchema s).config = none ∧ (ofSchema s).compose v .builtIn = (g, .ok r)

theorem exists_freshlyComposed
    (v : Vocabulary) :
    ∃ g, FreshlyComposed v g := by
  have free : ¬ (ofSchema .blank).schema.HasMemberOf v := by
    rintro (⟨n, -, present⟩ | ⟨n, -, present⟩) <;> cases present
  have ahead := ((marksRecorded_ofSchema .blank).ahead_iff_of_unrecorded rfl).mpr free
  obtain ⟨g, composed⟩ := exists_compose_builtIn ahead nofun
  exact ⟨g, .blank, _, rfl, composed⟩

end BuiltInTemplates

/-- **Recovery and refusal agree.**  If a schema records a configuration, the composition with
its vocabulary is never a conflict.  With the built-in templates it succeeds unless a scalar
of the language is of another kind, and then every member of the vocabulary is defined as a
fresh composition defines it.  With any other configuration the composition is a conflict that
changes nothing.  If a schema records none, a composition is a conflict just if the schema has
a member of its vocabulary. -/
theorem recovery_agrees
    (s : Schema) :
    (∀ c, (ofSchema s).config = some c →
      ∃ v, Vocabulary.ofConfig c = .ok v ∧
        (∀ templates, ¬ (ofSchema s).Conflicts v templates) ∧
        ((∀ n ∈ Vocabulary.builtInScalars, ∀ t, s.type? n = some t → t.kind = .scalar) →
          ∃ g, (ofSchema s).compose v .builtIn = (g, .ok ⟨v, v.placeholders⟩) ∧
            (∃ g', FreshlyComposed v g') ∧
            ∀ g', FreshlyComposed v g' → DefinesAlike v g.schema g'.schema) ∧
        ∀ raw w,
          Vocabulary.ofConfig raw = .ok w →
          (raw.normalize = c → w = v) ∧
            (raw.normalize ≠ c → ∀ templates,
              (ofSchema s).compose w templates =
                (ofSchema s, .error (.configConflict c raw.normalize)))) ∧
      ((ofSchema s).config = none →
        ∀ raw v templates,
          Vocabulary.ofConfig raw = .ok v →
          ((ofSchema s).Conflicts v templates ↔ s.HasMemberOf v)) := by
  have marks := marksRecorded_ofSchema s
  constructor
  · intro c recorded
    obtain ⟨v, rfl, -⟩ := marks.recorded c recorded
    have ahead := marks.ahead_of_recorded recorded
    refine ⟨v, v.ofConfig_config, ?_, ?_, ?_⟩
    · intro templates conflict
      exact conflicts_iff_refused.mp conflict ahead
    · intro scalars
      obtain ⟨g, composed⟩ := exists_compose_builtIn ahead (by rwa [schema_ofSchema])
      refine ⟨g, composed, exists_freshlyComposed v, ?_⟩
      rintro g' ⟨s', r, -, composed'⟩
      exact (composed_of_compose composed).definesAlike (composed_of_compose composed')
    · intro raw w accepted
      rw [← Vocabulary.config_of_ofConfig accepted]
      exact ⟨Vocabulary.config_injective, fun other templates =>
        compose_of_conflict templates recorded other⟩
  · intro unrecorded raw v templates _
    rw [conflicts_iff_refused, ← not_iff_not, not_not, marks.ahead_iff_of_unrecorded unrecorded,
      schema_ofSchema]

/-- A member that was altered is put back, since it is under a recorded name, and other
configurations are refused; without a record, an author's type is in the way. -/
theorem recovery_agrees_alteredKind :
    (ofSchema alteredKind).config = some Vocabulary.underP.config ∧
      (∃ v g, (ofSchema alteredKind).compose v .builtIn = (g, .ok ⟨v, v.placeholders⟩) ∧
        ∀ g', FreshlyComposed v g' → DefinesAlike v g.schema g'.schema) ∧
      (ofSchema alteredKind).compose .bare .builtIn =
        (ofSchema alteredKind,
          .error (.configConflict Vocabulary.underP.config Vocabulary.bare.config.normalize)) ∧
      (ofSchema takenName).config = none ∧
      (ofSchema takenName).Conflicts .bare .builtIn := by
  have recorded : (ofSchema alteredKind).config = some Vocabulary.underP.config := rfl
  have unrecorded : (ofSchema takenName).config = none := rfl
  have builtIn : ∀ n ∈ Vocabulary.builtInScalars,
      alteredKind.type? n = some (BuiltIn.scalar n) := by
    decide
  have scalars : ∀ n ∈ Vocabulary.builtInScalars,
      ∀ t, alteredKind.type? n = some t → t.kind = .scalar := by
    intro n hn t defined
    rw [builtIn n hn, Option.some_inj] at defined
    exact defined ▸ rfl
  have bare : Vocabulary.ofConfig Vocabulary.bare.config = .ok .bare :=
    Vocabulary.bare.ofConfig_config
  have other : Vocabulary.bare.config.normalize ≠ Vocabulary.underP.config := by decide
  have taken : takenName.HasMemberOf .bare :=
    Or.inl ⟨FusionType.typeName.baseName, by decide, by decide⟩
  obtain ⟨v, -, -, succeeds, refused⟩ := (recovery_agrees alteredKind).1 _ recorded
  obtain ⟨g, composed, -, alike⟩ := succeeds scalars
  exact ⟨recorded, ⟨v, g, composed, alike⟩, (refused _ _ bare).2 other .builtIn, unrecorded,
    ((recovery_agrees takenName).2 unrecorded _ _ .builtIn bare).mpr taken⟩

end Target
end Supergraph
