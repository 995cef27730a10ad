import Supergraph.Proofs.Composition.Validity

/-!
# The vocabulary is closed

Three tables have to fit: the names of the vocabulary, the placeholders that templates may
use, and the types that the composition puts in.  They do (`registered_vocabulary_closed`).
Whatever a registered directive refers to is there and can be the type of an argument.  So it
is for every further directive that is instantiated with the registered placeholders, and the
registered directives are themselves what these placeholders make of their templates.
-/

namespace Supergraph

namespace Vocabulary

variable {v : Vocabulary}

/-- Whatever the template is, its instance refers to types of the vocabulary. -/
theorem refersTo_of_instantiate
    {template : Member}
    {n : Name}
    {d : DirectiveDef}
    (h : v.placeholders.instantiate template n = .ok d) :
    ∀ a ∈ d.arguments, v.RefersTo a.type.innermost := by
  obtain ⟨_, -, made⟩ := Placeholders.instantiate_eq_ok_iff.mp h
  intro b hb
  obtain ⟨a, -, bound⟩ := exists_of_mem_forall₂ made.arguments hb
  exact refersTo_of_lookup? bound.innermost

end Vocabulary

namespace Target

variable {f g : Target} {v : Vocabulary} {templates : Templates} {r : Registration}

/-- The schema has every member of the vocabulary under its name, and whatever they refer to
is there as well. -/
structure Closed (v : Vocabulary) (s : Schema) : Prop where
  types : ∀ n ∈ v.typeNames, ∃ t, s.type? n = some t ∧ t.name = n
  directives : ∀ n ∈ v.directiveNames,
    ∃ d, s.directive? n = some d ∧ d.name = n ∧ ∀ a ∈ d.arguments, s.HasInput a.type.innermost
  argumentDefinition : ∃ t, s.type? (v.typeName .argumentDefinition) = some t ∧
    t.kind = .inputObject ∧ ∀ a ∈ t.body.inputFields, s.HasInput a.type.innermost

theorem Composed.closed
    (h : Composed v templates f g) :
    Closed v g.schema where
  types := by
    intro n hn
    obtain ⟨t, rfl⟩ := Vocabulary.exists_of_mem_typeNames hn
    exact ⟨v.typeDef t, h.types t, v.name_typeDef t⟩
  directives := by
    intro n hn
    obtain ⟨d, registered, rfl⟩ := h.exists_registered hn
    refine ⟨d, h.directive?_of_registers registered, rfl, fun a ha => h.hasInput ?_⟩
    cases registered with
    | own own => exact (v.plain_ownDirectives d own).types a ha
    | templated _ instantiated =>
        exact Vocabulary.refersTo_of_instantiate instantiated a ha
  argumentDefinition := by
    refine ⟨v.argumentDefinition, h.types .argumentDefinition, rfl, ?_⟩
    refine List.forall_mem_cons.mpr ⟨?_, List.forall_mem_singleton.mpr ?_⟩
    · exact h.hasInput (Or.inr (v.typeName_mem .typeName))
    · exact h.hasInput (Or.inr (v.typeName_mem .type))

/-- **The registered vocabulary is closed.**  After a composition that succeeded, whatever its
templates are, the vocabulary is there and refers to types only that arguments can be of.
What the registered placeholders make of any further template refers to such types only, and
what they make of a template that the composition was given is the definition that was
registered for it. -/
theorem registered_vocabulary_closed
    (h : f.compose v templates = (g, .ok r)) :
    r.vocabulary = v ∧
      Closed v g.schema ∧
      (∀ template n d,
        r.placeholders.instantiate template n = .ok d →
        ∀ a ∈ d.arguments, g.schema.HasInput a.type.innermost) ∧
      ∀ t k,
        (t, k) ∈ FusionDirective.templated →
        ∃ d,
          g.schema.directive? (v.directiveName k) = some d ∧
            r.placeholders.instantiate (templates t k) (v.directiveName k) = .ok d := by
  have composed := composed_of_compose h
  obtain ⟨-, rfl, -⟩ := stages_of_compose h
  refine ⟨rfl, composed.closed, ?_, ?_⟩
  · intro template n d instantiated a ha
    exact composed.hasInput (Vocabulary.refersTo_of_instantiate instantiated a ha)
  · intro t k htk
    obtain ⟨d, instantiated, defined⟩ := composed.templated t k htk
    exact ⟨d, defined, instantiated⟩

/-- A template with an argument of a list of lists of a type of the vocabulary. -/
def nestedLists : Member :=
  .directive <| .plain FusionDirective.resolve.baseName
    [ .plain ArgumentName.select
        (.list (.list (Templates.placeholder .selectionSet true) false) true) ]
    false [.fieldDefinition]

/-- The lists are kept, and the type within is the one under the prefix. -/
theorem registered_vocabulary_closed_nestedLists :
    ((ofSchema takenName).compose .underP (Templates.builtIn.set .resolve nestedLists)).2 =
        .ok ⟨.underP, Vocabulary.underP.placeholders⟩ ∧
      ∃ d,
        ((ofSchema takenName).compose .underP
            (Templates.builtIn.set .resolve nestedLists)).1.schema.directive?
            (Vocabulary.underP.directiveName .transport) = some d ∧
          d.arguments.map InputValue.type =
            [.list (.list (Vocabulary.underP.required .selectionSet) false) true] := by
  have succeeded :
      ((ofSchema takenName).compose .underP (Templates.builtIn.set .resolve nestedLists)).2 =
        .ok ⟨.underP, Vocabulary.underP.placeholders⟩ := rfl
  obtain ⟨-, -, -, registered⟩ := registered_vocabulary_closed (Prod.ext rfl succeeded)
  obtain ⟨d, defined, instantiated⟩ := registered .resolve .transport (by decide)
  refine ⟨succeeded, d, defined, ?_⟩
  cases instantiated
  rfl

end Target
end Supergraph
