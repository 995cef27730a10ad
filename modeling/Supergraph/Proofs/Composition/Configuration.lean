import Supergraph.Proofs.Recovery

/-!
# One schema, one configuration

Of all edits only the last one of a composition records a configuration, and a
composition that goes ahead has found no other one recorded.  A configuration that a
target has therefore stays, whatever compositions follow and whatever becomes of them;
it is in normal form, since it is recovered from a record or taken from a vocabulary.
`one_configuration` says so of every run of compositions, together with what each
further composition answers and what a successful one leaves on the schema definition.
-/

namespace Supergraph

namespace Config

/-- The prefix is a name, if there is one, and the root has it only if there is one. -/
structure IsNormalForm (c : Config) : Prop where
  spelled : ∀ q, c.qualifier = some q → spellsName q.toList = true
  qualified : c.qualifyRoot = true → c.qualifier.isSome = true

/-- The arguments that record a configuration: the version, and in front of it both
parts of the configuration if there is a prefix. -/
def recordArguments (c : Config) : List Argument :=
  (match c.qualifier with
    | none => []
    | some q =>
        [ ⟨ArgumentName.qualifier, .string q⟩,
          ⟨ArgumentName.qualifyRoot, .boolean c.qualifyRoot⟩ ])
    ++ [⟨ArgumentName.version, .int Vocabulary.formatVersion⟩]

end Config

namespace Vocabulary

theorem isNormalForm_config
    (v : Vocabulary) :
    v.config.IsNormalForm where
  spelled := by
    intro q hq
    obtain ⟨n, -, rfl⟩ := Option.map_eq_some_iff.mp hq
    exact n.spelled
  qualified := by
    intro root
    have prefixed := v.isSome_of_qualifyRoot root
    simpa [config] using prefixed

theorem rootApplication_eq
    (v : Vocabulary) :
    v.rootApplication = ⟨v.directiveName .root, v.config.recordArguments⟩ := by
  obtain ⟨q, b, h⟩ := v
  cases q <;> rfl

end Vocabulary

namespace Target

variable {f g : Target} {v : Vocabulary} {c : Config}

section Edits

/-- An edit for the recorded configuration keeps it. -/
theorem config_of_edit
    (recorded : f.config = some c)
    (same : c = v.config)
    (edit : Edit v f g) :
    g.config = some c := by
  cases edit with
  | record => rw [same]
  | addScalar language absent => exact recorded
  | insertType t => exact recorded
  | insertDirective named => exact recorded
  | applyRoot marked => exact recorded

/-- Every configuration that the target has is in normal form. -/
def ConfiguredNormally (f : Target) : Prop :=
  ∀ c, f.config = some c → c.IsNormalForm

theorem configuredNormally_of_edit
    (normal : f.ConfiguredNormally)
    (edit : Edit v f g) :
    g.ConfiguredNormally := by
  cases edit with
  | record =>
      intro c hc
      obtain rfl := Option.some.inj hc
      exact v.isNormalForm_config
  | addScalar language absent => exact normal
  | insertType t => exact normal
  | insertDirective named => exact normal
  | applyRoot marked => exact normal

end Edits

section Compositions

variable (templates : Templates)

theorem config_compose
    (recorded : f.config = some c) :
    (f.compose v templates).1.config = some c := by
  refine compose_induction templates (fun g => g.config = some c) recorded ?_
  intro ahead g k ih edit
  have same : c = v.config := (refusal?_eq_none_iff.mp ahead).1 c recorded
  exact config_of_edit ih same edit

theorem configuredNormally_compose
    (normal : f.ConfiguredNormally) :
    (f.compose v templates).1.ConfiguredNormally :=
  compose_induction templates ConfiguredNormally normal
    (fun _ _ _ ih edit => configuredNormally_of_edit ih edit)

/-- Another configuration than the recorded one is refused, and nothing changes. -/
theorem compose_of_conflict
    (recorded : f.config = some c)
    (other : v.config ≠ c) :
    f.compose v templates = (f, .error (.configConflict c v.config)) := by
  refine compose_of_refusal templates ?_
  simp only [refusal?, recorded]
  exact if_neg (fun same => other same.symm)

end Compositions

section Runs

variable (runs : List (Vocabulary × Templates))

theorem config_composeAll
    (recorded : f.config = some c) :
    (f.composeAll runs).config = some c :=
  composeAll_induction (fun g => g.config = some c) recorded
    (fun _ _ templates => config_compose templates) runs

theorem configuredNormally_ofSchema
    (s : Schema) :
    (ofSchema s).ConfiguredNormally := by
  intro c hc
  cases h : Vocabulary.ofApplications? s.definition.applications with
  | none =>
      rw [ofSchema_of_unrecorded h] at hc
      cases hc
  | some w =>
      rw [ofSchema_of_recorded h, config_recover] at hc
      obtain rfl := Option.some.inj hc
      exact w.isNormalForm_config

theorem configuredNormally_composeAll
    (s : Schema) :
    ((ofSchema s).composeAll runs).ConfiguredNormally :=
  composeAll_induction ConfiguredNormally (configuredNormally_ofSchema s)
    (fun _ _ templates => configuredNormally_compose templates) runs

end Runs

/-- **One schema, one configuration.**  Let any compositions have led from a schema to a
target.  A configuration that the target has is in normal form, stays through all
compositions that follow, and makes each of them for another configuration a conflict
that changes nothing.  A composition that succeeds is for the configuration that the
target has, if it has one; from then on that configuration stays, and on the schema
definition the record of it stands once, behind all applications of other names. -/
theorem one_configuration
    {s : Schema}
    {before : List (Vocabulary × Templates)}
    (reached : f = (ofSchema s).composeAll before) :
    (∀ c, f.config = some c →
      c.IsNormalForm ∧
        (∀ after, (f.composeAll after).config = some c) ∧
        ∀ raw v templates,
          Vocabulary.ofConfig raw = .ok v →
          raw.normalize ≠ c →
          f.compose v templates = (f, .error (.configConflict c raw.normalize))) ∧
      ∀ raw v templates g r,
        Vocabulary.ofConfig raw = .ok v →
        f.compose v templates = (g, .ok r) →
        (∀ c, f.config = some c → c = raw.normalize) ∧
          (∀ after, (g.composeAll after).config = some raw.normalize) ∧
          g.schema.definition =
            { f.schema.definition with
              directives :=
                f.schema.definition.directives.filter
                    (fun a => a.item.name != v.directiveName .root)
                  ++ [⟨.definition,
                    ⟨v.directiveName .root, raw.normalize.recordArguments⟩⟩] } := by
  constructor
  · intro c recorded
    have normal : f.ConfiguredNormally := reached ▸ configuredNormally_composeAll before s
    refine ⟨normal c recorded, fun after => config_composeAll after recorded, ?_⟩
    intro raw v templates named other
    rw [← Vocabulary.config_of_ofConfig named] at other ⊢
    exact compose_of_conflict templates recorded other
  · intro raw v templates g r named h
    have ahead := (stages_of_compose h).1
    have composed := composed_of_compose h
    rw [← Vocabulary.config_of_ofConfig named, ← v.rootApplication_eq]
    exact ⟨(refusal?_eq_none_iff.mp ahead).1, fun after => config_composeAll after composed.config,
      composed.definition⟩

/-- Two compositions come to nothing, one at the names and one at a template.  The third
succeeds, and then a configuration with an empty prefix is a conflict. -/
theorem one_configuration_after_failures :
    let failed := (ofSchema takenName).composeAll [(.bare, .builtIn), (.underP, brokenTemplates)]
    let composed := (failed.compose .underP .builtIn).1
    Vocabulary.ofConfig ⟨some "p", true⟩ = .ok .underP ∧
      (failed.compose .underP .builtIn).2 = .ok ⟨.underP, Vocabulary.underP.placeholders⟩ ∧
      (composed.composeAll [(.bare, .builtIn)]).config = some ⟨some "p", true⟩ ∧
      Vocabulary.ofConfig ⟨some "", true⟩ = .ok .bare ∧
      composed.compose .bare .builtIn =
        (composed, .error (.configConflict ⟨some "p", true⟩ .unqualified)) := by
  intro failed composed
  have succeeded : (failed.compose .underP .builtIn).2 =
      .ok ⟨.underP, Vocabulary.underP.placeholders⟩ := rfl
  have recorded := ((one_configuration rfl).2 ⟨some "p", true⟩ .underP .builtIn composed _ rfl
    (Prod.ext rfl succeeded : failed.compose .underP .builtIn = (composed, _))).2.1
  have reached : composed = (ofSchema takenName).composeAll
      [(.bare, .builtIn), (.underP, brokenTemplates), (.underP, .builtIn)] := rfl
  have conflicts := ((one_configuration reached).1 _ (recorded [])).2.2
  exact ⟨rfl, succeeded, recorded _, rfl, conflicts ⟨some "", true⟩ .bare .builtIn rfl (by decide)⟩

end Target
end Supergraph
