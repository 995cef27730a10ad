import Supergraph.Proofs.Composition.Success

/-!
# Composing again

What a composition puts into a schema it puts under fixed names, and a value that is
put where it stands already leaves a table as it is.  A target that a composition has
succeeded on therefore absorbs every stage of the same composition: the order of the
types, of the directives, of the applications and of the marks stays, and so does the
target as a whole (`compose_of_compose`).
-/

namespace Supergraph

namespace Table

/-- A mark that is set already is set in its own place. -/
theorem put_name_eq_self
    {t : Table Name}
    {n : Name}
    (h : n ∈ t.keys) :
    t.put n = t := by
  obtain ⟨m, hm, rfl⟩ := mem_keys_iff.mp h
  exact put_eq_self (get?_key hm)

end Table

theorem foldl_eq_self
    {α β : Type}
    {step : α → β → α}
    {a : α}
    {bs : List β}
    (h : ∀ b ∈ bs, step a b = a) :
    bs.foldl step a = a := by
  induction bs with
  | nil => rfl
  | cons b bs ih =>
      rw [List.foldl_cons, h b List.mem_cons_self]
      exact ih (fun c hc => h c (List.mem_cons_of_mem b hc))

namespace Target

variable {f g : Target} {v : Vocabulary} {templates : Templates}

section Absorption

theorem insertType_eq_self
    {t : TypeDef}
    (defined : f.schema.type? t.name = some t)
    (marked : f.isMarkedType t.name = true) :
    f.insertType t = f := by
  have types : f.schema.types.put t = f.schema.types := Table.put_eq_self defined
  have marks : f.markedTypes.put t.name = f.markedTypes :=
    Table.put_name_eq_self (isMarkedType_iff.mp marked)
  rw [insertType, types, marks, Schema.withTypes_types]

theorem insertDirective_eq_self
    {d : DirectiveDef}
    (defined : f.schema.directive? d.name = some d)
    (marked : f.isMarkedDirective d.name = true) :
    f.insertDirective d = f := by
  have directives : f.schema.directives.put d = f.schema.directives := Table.put_eq_self defined
  have marks : f.markedDirectives.put d.name = f.markedDirectives :=
    Table.put_name_eq_self (isMarkedDirective_iff.mp marked)
  rw [insertDirective, directives, marks]

/-- An application that stands last, and nowhere else, is replaced by itself. -/
theorem replaceApplication_eq_self
    {d : Directive}
    {before : List (Sourced Directive)}
    (last : f.schema.definition.directives =
      before.filter (fun a => a.item.name != d.name) ++ [⟨.definition, d⟩]) :
    f.replaceApplication d = f := by
  have same : f.schema.definition.directives.filter (fun a => a.item.name != d.name)
      ++ [⟨.definition, d⟩] = f.schema.definition.directives := by
    rw [last, List.filter_append, List.filter_filter]
    simp
  simp only [replaceApplication, same]

theorem ensureScalars_eq_self
    {ns : List Name}
    (h : ∀ n ∈ ns, ∃ t, f.schema.type? n = some t ∧ t.kind = .scalar) :
    f.ensureScalars ns = (f, none) := by
  induction ns with
  | nil => rfl
  | cons n ns ih =>
      obtain ⟨t, defined, scalar⟩ := h n List.mem_cons_self
      simp only [ensureScalars, defined, scalar, if_true]
      exact ih (fun m hm => h m (List.mem_cons_of_mem n hm))

theorem insertTemplated_eq_self
    {rest : List (TemplateName × FusionDirective)}
    (h : ∀ t k, (t, k) ∈ rest →
      ∃ d, v.placeholders.instantiate (templates t k) (v.directiveName k) = .ok d ∧
        f.schema.directive? (v.directiveName k) = some d ∧
        f.isMarkedDirective (v.directiveName k) = true) :
    insertTemplated v templates f rest = (f, none) := by
  induction rest with
  | nil => rfl
  | cons tk rest ih =>
      obtain ⟨t, k⟩ := tk
      obtain ⟨d, instantiated, defined, marked⟩ := h t k List.mem_cons_self
      have named := Placeholders.name_of_instantiate instantiated
      have same : f.insertDirective d = f :=
        insertDirective_eq_self (by rwa [named]) (by rwa [named])
      simp only [insertTemplated, instantiated, same]
      exact ih (fun u j huj => h u j (List.mem_cons_of_mem _ huj))

end Absorption

/-- The members of the vocabulary are in their places and marked, and its configuration is
recorded. -/
structure InPlace (v : Vocabulary) (templates : Templates) (g : Target) : Prop where
  config : g.config = some v.config
  scalars : ∀ n ∈ Vocabulary.builtInScalars, ∃ t, g.schema.type? n = some t ∧ t.kind = .scalar
  types : ∀ k, g.schema.type? (v.typeName k) = some (v.typeDef k)
  ownDirectives : ∀ d ∈ v.ownDirectives, g.schema.directive? d.name = some d
  templated : ∀ t k, (t, k) ∈ FusionDirective.templated →
    ∃ d, v.placeholders.instantiate (templates t k) (v.directiveName k) = .ok d ∧
      g.schema.directive? (v.directiveName k) = some d
  markedTypes : ∀ n ∈ v.typeNames, g.isMarkedType n = true
  markedDirectives : ∀ n ∈ v.directiveNames, g.isMarkedDirective n = true

namespace InPlace

variable (h : InPlace v templates g)

include h

/-- A target with a vocabulary in place goes ahead with it. -/
theorem refusal?_eq_none : g.refusal? v = none := by
  refine refusal?_eq_none_iff.mpr ⟨?_, fun n hn _ => h.markedTypes n hn,
    fun n hn _ => h.markedDirectives n hn⟩
  intro c hc
  rw [h.config, Option.some_inj] at hc
  exact hc.symm

theorem insertTypes_eq_self : g.insertTypes v = g := by
  refine foldl_eq_self ?_
  intro t ht
  obtain ⟨k, -, rfl⟩ := List.mem_map.mp ht
  refine insertType_eq_self ?_ ?_
  · rw [v.name_typeDef]
    exact h.types k
  · rw [v.name_typeDef]
    exact h.markedTypes _ (v.typeName_mem k)

theorem insertOwnDirectives_eq :
    g.insertOwnDirectives v = g.replaceApplication v.rootApplication := by
  have directives : v.ownDirectives.foldl insertDirective g = g := by
    refine foldl_eq_self fun d hd => insertDirective_eq_self (h.ownDirectives d hd) ?_
    obtain ⟨k, named⟩ := v.exists_name_of_mem_ownDirectives hd
    rw [named]
    exact h.markedDirectives _ (v.directiveName_mem k)
  rw [insertOwnDirectives, directives]

/-- A composition with a vocabulary in place only applies the root directive again. -/
theorem compose_eq :
    g.compose v templates =
      (g.replaceApplication v.rootApplication, .ok ⟨v, v.placeholders⟩) := by
  have templated : insertTemplated v templates (g.replaceApplication v.rootApplication)
      FusionDirective.templated = (g.replaceApplication v.rootApplication, none) := by
    refine insertTemplated_eq_self fun t k htk => ?_
    obtain ⟨d, instantiated, defined⟩ := h.templated t k htk
    exact ⟨d, instantiated, defined, h.markedDirectives _ (v.directiveName_mem k)⟩
  have recorded : { g.replaceApplication v.rootApplication with config := some v.config } =
      g.replaceApplication v.rootApplication := by
    rw [← h.config]
    rfl
  simp only [compose, h.refusal?_eq_none, ensureScalars_eq_self h.scalars, h.insertTypes_eq_self,
    h.insertOwnDirectives_eq, templated, recorded]

end InPlace

namespace Composed

theorem inPlace
    (h : Composed v templates f g) :
    InPlace v templates g where
  config := h.config
  scalars := h.scalars
  types := h.types
  ownDirectives := h.ownDirectives
  templated := h.templated
  markedTypes := fun n hn => (h.markedTypes n).mpr (Or.inl hn)
  markedDirectives := fun n hn => (h.markedDirectives n).mpr (Or.inl hn)

/-- A composed target absorbs the composition. -/
theorem compose_eq_self
    (h : Composed v templates f g) :
    g.compose v templates = (g, .ok ⟨v, v.placeholders⟩) := by
  have same : g.replaceApplication v.rootApplication = g :=
    replaceApplication_eq_self (congrArg SchemaDef.directives h.definition)
  rw [h.inPlace.compose_eq, same]

end Composed

/-- **Composing again changes nothing.**  Whatever target a composition has succeeded
on, the same composition succeeds on its result, registers the same, and leaves every
table, list and mark as it is. -/
theorem compose_of_compose
    {r : Registration}
    (h : f.compose v templates = (g, .ok r)) :
    g.compose v templates = (g, .ok r) := by
  obtain ⟨-, rfl, -⟩ := stages_of_compose h
  exact (composed_of_compose h).compose_eq_self

/-- A composition with a prefix, begun on what the failure of another one has left. -/
theorem compose_of_compose_after_failure :
    (((ofSchema takenName).compose .underP brokenTemplates).1.compose .underP .builtIn).2 =
        .ok ⟨.underP, Vocabulary.underP.placeholders⟩ ∧
      (((ofSchema takenName).compose .underP brokenTemplates).1.compose
          .underP .builtIn).1.compose .underP .builtIn =
        ((ofSchema takenName).compose .underP brokenTemplates).1.compose .underP .builtIn := by
  have composed :
      (((ofSchema takenName).compose .underP brokenTemplates).1.compose .underP .builtIn).2 =
        .ok ⟨.underP, Vocabulary.underP.placeholders⟩ := rfl
  exact ⟨composed, (compose_of_compose (Prod.ext rfl composed)).trans (Prod.ext rfl composed).symm⟩

end Target
end Supergraph
