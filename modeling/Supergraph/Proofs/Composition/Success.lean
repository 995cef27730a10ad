import Supergraph.Proofs.Composition.Edits

/-!
# What a successful composition leaves

A composition that succeeds has put every member of the vocabulary in its place:
the types, the directives with a definition of their own and those instantiated from
templates are found under their names, and the root directive is applied once, at the
end (`Composed`).  The stages of a composition are taken one by one; since the names
of the vocabulary are distinct, no stage touches what another one has put in.
-/

namespace Supergraph

namespace Vocabulary

theorem map_name_typeDef
    (v : Vocabulary) :
    (FusionType.all.map v.typeDef).map TypeDef.name = v.typeNames := by
  rw [List.map_map]
  exact List.map_congr_left (fun t _ => v.name_typeDef t)

/-- The names of the directives with a definition of their own. -/
theorem map_name_ownDirectives
    (v : Vocabulary) :
    v.ownDirectives.map DirectiveDef.name =
      [FusionDirective.privateMark, .resolver, .variableBinding, .node, .root].map
        v.directiveName :=
  rfl

/-- The definition is one that compositions register for a directive of the vocabulary: one
of its own, or the instance of a template. -/
inductive Registers (v : Vocabulary) (templates : Templates) : DirectiveDef → Prop where
  | own {d : DirectiveDef}
      (own : d ∈ v.ownDirectives) :
      Registers v templates d
  | templated {t : TemplateName} {k : FusionDirective} {d : DirectiveDef}
      (asked : (t, k) ∈ FusionDirective.templated)
      (instantiated : v.placeholders.instantiate (templates t k) (v.directiveName k) = .ok d) :
      Registers v templates d

end Vocabulary

namespace FusionDirective

/-- A directive has a definition of its own, or a template for it. -/
theorem mem_own_or_templated
    (k : FusionDirective) :
    k ∈ [privateMark, resolver, variableBinding, node, root] ∨ k ∈ templated.map Prod.snd := by
  cases k <;> decide

end FusionDirective

namespace Target

variable {f g : Target} {v : Vocabulary} {templates : Templates}

section Scalars

theorem read_ensureScalars
    {γ : Type}
    (read : Target → γ)
    (h : ∀ f n, read (addScalar f n) = read f)
    (ns : List Name)
    (f : Target) :
    read (f.ensureScalars ns).1 = read f := by
  induction ns generalizing f with
  | nil => rfl
  | cons n ns ih =>
      unfold ensureScalars
      split
      · split
        · exact ih f
        · rfl
      · exact (ih _).trans (h f n)

theorem type?_ensureScalars
    {ns : List Name}
    {n : Name}
    {t : TypeDef}
    (h : f.schema.type? n = some t) :
    (f.ensureScalars ns).1.schema.type? n = some t := by
  induction ns generalizing f with
  | nil => exact h
  | cons m ns ih =>
      unfold ensureScalars
      split
      · split
        · exact ih h
        · exact h
      · rename_i absent
        have hnm : n ≠ m := by
          rintro rfl
          rw [h] at absent
          cases absent
        exact ih ((Table.get?_put_of_ne hnm).trans h)

theorem scalar_of_ensureScalars
    {ns : List Name}
    (h : f.ensureScalars ns = (g, none))
    {n : Name}
    (hn : n ∈ ns) :
    ∃ t, g.schema.type? n = some t ∧ t.kind = .scalar := by
  induction ns generalizing f with
  | nil => cases hn
  | cons m ns ih =>
      unfold ensureScalars at h
      split at h
      · rename_i t defined
        split at h
        · rename_i scalar
          rcases List.mem_cons.mp hn with rfl | hn
          · refine ⟨t, ?_, scalar⟩
            rw [show g = (f.ensureScalars ns).1 by rw [h]]
            exact type?_ensureScalars defined
          · exact ih h hn
        · cases h
      · rcases List.mem_cons.mp hn with rfl | hn
        · refine ⟨.plainScalar n, ?_, rfl⟩
          rw [show g = ((f.addScalar n).ensureScalars ns).1 by rw [h]]
          exact type?_ensureScalars (Table.get?_put_self _ (TypeDef.plainScalar n))
        · exact ih h hn

end Scalars

section Types

theorem type?_insertTypes
    (f : Target)
    (v : Vocabulary)
    (t : FusionType) :
    (f.insertTypes v).schema.type? (v.typeName t) = some (v.typeDef t) := by
  have names : ((FusionType.all.map v.typeDef).map key).Nodup := by
    show ((FusionType.all.map v.typeDef).map TypeDef.name).Nodup
    rw [v.map_name_typeDef]
    exact v.nodup_typeNames
  rw [← v.name_typeDef t, Schema.type?, insertTypes, types_foldl_insertType]
  exact Table.get?_foldl_put_of_mem (List.mem_map_of_mem t.mem_all) names

theorem type?_insertTypes_of_not_mem
    {n : Name}
    (h : n ∉ v.typeNames) :
    (f.insertTypes v).schema.type? n = f.schema.type? n := by
  rw [← v.map_name_typeDef] at h
  rw [Schema.type?, insertTypes, types_foldl_insertType]
  exact Table.get?_foldl_put_of_not_mem h

theorem isMarkedType_insertTypes
    {n : Name} :
    (f.insertTypes v).isMarkedType n = true ↔ n ∈ v.typeNames ∨ f.isMarkedType n = true := by
  rw [insertTypes, isMarkedType_foldl_insertType, v.map_name_typeDef]

theorem read_insertTypes
    {γ : Type}
    (read : Target → γ)
    (h : ∀ f t, read (insertType f t) = read f)
    (f : Target) :
    read (f.insertTypes v) = read f :=
  apply_foldl_eq insertType read h _ f

end Types

section OwnDirectives

theorem directive?_insertOwnDirectives
    {d : DirectiveDef}
    (h : d ∈ v.ownDirectives) :
    (f.insertOwnDirectives v).schema.directive? d.name = some d := by
  have names : (v.ownDirectives.map key).Nodup := by
    show (v.ownDirectives.map DirectiveDef.name).Nodup
    rw [v.map_name_ownDirectives]
    exact v.nodup_map_directiveName (by decide)
  rw [Schema.directive?, insertOwnDirectives, directives_replaceApplication,
    directives_foldl_insertDirective]
  exact Table.get?_foldl_put_of_mem h names

theorem isMarkedDirective_insertOwnDirectives
    {n : Name} :
    (f.insertOwnDirectives v).isMarkedDirective n = true ↔
      n ∈ v.ownDirectives.map DirectiveDef.name ∨ f.isMarkedDirective n = true := by
  rw [insertOwnDirectives, isMarkedDirective_replaceApplication,
    isMarkedDirective_foldl_insertDirective]

/-- The root directive is applied at the end, and all its applications before are gone. -/
theorem definition_insertOwnDirectives
    (f : Target)
    (v : Vocabulary) :
    (f.insertOwnDirectives v).schema.definition =
      { f.schema.definition with
        directives :=
          f.schema.definition.directives.filter
              (fun a => a.item.name != v.directiveName .root)
            ++ [⟨.definition, v.rootApplication⟩] } := by
  have same : (v.ownDirectives.foldl insertDirective f).schema.definition = f.schema.definition :=
    apply_foldl_eq insertDirective (fun f => f.schema.definition) (fun _ _ => rfl) _ f
  rw [insertOwnDirectives, replaceApplication, same]
  rfl

theorem read_insertOwnDirectives
    {γ : Type}
    (read : Target → γ)
    (hd : ∀ f d, read (insertDirective f d) = read f)
    (ha : ∀ f a, read (replaceApplication f a) = read f)
    (f : Target) :
    read (f.insertOwnDirectives v) = read f :=
  (ha _ _).trans (apply_foldl_eq insertDirective read hd _ f)

end OwnDirectives

section Templated

theorem read_insertTemplated
    {γ : Type}
    (read : Target → γ)
    (h : ∀ f d, read (insertDirective f d) = read f)
    (rest : List (TemplateName × FusionDirective))
    (f : Target) :
    read (insertTemplated v templates f rest).1 = read f := by
  induction rest generalizing f with
  | nil => rfl
  | cons tk rest ih =>
      unfold insertTemplated
      split
      · rfl
      · exact (ih _).trans (h f _)

/-- The names of the directives of a list, in a vocabulary. -/
def templatedNames (v : Vocabulary) (rest : List (TemplateName × FusionDirective)) : List Name :=
  (rest.map Prod.snd).map v.directiveName

theorem directive?_insertTemplated_of_not_mem
    {rest : List (TemplateName × FusionDirective)}
    {n : Name}
    (h : n ∉ templatedNames v rest) :
    (insertTemplated v templates f rest).1.schema.directive? n = f.schema.directive? n := by
  induction rest generalizing f with
  | nil => rfl
  | cons tk rest ih =>
      obtain ⟨t, k⟩ := tk
      rw [templatedNames, List.map_cons, List.map_cons, List.mem_cons, not_or] at h
      unfold insertTemplated
      split
      · rfl
      · rename_i d hd
        refine (ih h.2).trans (Table.get?_put_of_ne ?_)
        rw [key_directiveDef, Placeholders.name_of_instantiate hd]
        exact h.1

/-- Every template was usable, and its instance is found under its name. -/
theorem directive?_of_insertTemplated
    {rest : List (TemplateName × FusionDirective)}
    (names : (rest.map Prod.snd).Nodup)
    (h : insertTemplated v templates f rest = (g, none))
    {t : TemplateName}
    {k : FusionDirective}
    (htk : (t, k) ∈ rest) :
    ∃ d, v.placeholders.instantiate (templates t k) (v.directiveName k) = .ok d ∧
      g.schema.directive? (v.directiveName k) = some d := by
  induction rest generalizing f with
  | nil => cases htk
  | cons uj rest ih =>
      obtain ⟨u, j⟩ := uj
      rw [List.map_cons, List.nodup_cons] at names
      unfold insertTemplated at h
      split at h
      · cases h
      · rename_i d hd
        rcases List.mem_cons.mp htk with htk | htk
        · cases htk
          refine ⟨d, hd, ?_⟩
          have later : v.directiveName k ∉ templatedNames v rest := by
            intro hk
            obtain ⟨j, hj, hjk⟩ := List.mem_map.mp hk
            exact names.1 (Vocabulary.directiveName_injective hjk ▸ hj)
          rw [show g = (insertTemplated v templates (f.insertDirective d) rest).1 by rw [h],
            directive?_insertTemplated_of_not_mem later, ← Placeholders.name_of_instantiate hd]
          exact Table.get?_put_self _ d
        · exact ih names.2 h htk

theorem isMarkedDirective_of_insertTemplated
    {rest : List (TemplateName × FusionDirective)}
    (h : insertTemplated v templates f rest = (g, none))
    {n : Name} :
    g.isMarkedDirective n = true ↔ n ∈ templatedNames v rest ∨ f.isMarkedDirective n = true := by
  induction rest generalizing f with
  | nil =>
      cases h
      simp [templatedNames]
  | cons tk rest ih =>
      obtain ⟨t, k⟩ := tk
      unfold insertTemplated at h
      split at h
      · cases h
      · rename_i d hd
        rw [ih h, isMarkedDirective_insertDirective, Placeholders.name_of_instantiate hd]
        simp only [templatedNames, List.map_cons, List.mem_cons]
        tauto

end Templated

section Names

/-- No directive with a definition of its own is instantiated from a template. -/
theorem not_mem_templatedNames_of_own
    {n : Name}
    (h : n ∈ v.ownDirectives.map DirectiveDef.name) :
    n ∉ templatedNames v FusionDirective.templated := by
  rw [v.map_name_ownDirectives] at h
  intro h'
  obtain ⟨k, hk, rfl⟩ := List.mem_map.mp h
  obtain ⟨j, hj, hjk⟩ := List.mem_map.mp h'
  rw [Vocabulary.directiveName_injective hjk] at hj
  revert hk hj
  cases k <;> decide

theorem mem_directiveNames_iff
    {n : Name} :
    n ∈ v.directiveNames ↔
      n ∈ templatedNames v FusionDirective.templated ∨
        n ∈ v.ownDirectives.map DirectiveDef.name := by
  rw [v.map_name_ownDirectives]
  constructor
  · intro hn
    obtain ⟨k, rfl⟩ := Vocabulary.exists_of_mem_directiveNames hn
    rcases k.mem_own_or_templated with hk | hk
    · exact Or.inr (List.mem_map_of_mem hk)
    · exact Or.inl (List.mem_map_of_mem hk)
  · rintro (hn | hn)
    · obtain ⟨k, _, rfl⟩ := List.mem_map.mp hn
      exact v.directiveName_mem k
    · obtain ⟨k, _, rfl⟩ := List.mem_map.mp hn
      exact v.directiveName_mem k

end Names

section Composed

/-- What a composition that succeeded made of a target. -/
structure Composed (v : Vocabulary) (templates : Templates) (f g : Target) : Prop where
  config : g.config = some v.config
  scalars : ∀ n ∈ Vocabulary.builtInScalars, ∃ t, g.schema.type? n = some t ∧ t.kind = .scalar
  types : ∀ t, g.schema.type? (v.typeName t) = some (v.typeDef t)
  ownDirectives : ∀ d ∈ v.ownDirectives, g.schema.directive? d.name = some d
  templated : ∀ t k, (t, k) ∈ FusionDirective.templated →
    ∃ d, v.placeholders.instantiate (templates t k) (v.directiveName k) = .ok d ∧
      g.schema.directive? (v.directiveName k) = some d
  definition : g.schema.definition =
    { f.schema.definition with
      directives :=
        f.schema.definition.directives.filter (fun a => a.item.name != v.directiveName .root)
          ++ [⟨.definition, v.rootApplication⟩] }
  markedTypes : ∀ n, g.isMarkedType n = true ↔ n ∈ v.typeNames ∨ f.isMarkedType n = true
  markedDirectives : ∀ n,
    g.isMarkedDirective n = true ↔ n ∈ v.directiveNames ∨ f.isMarkedDirective n = true

/-- The stages of a composition that succeeded. -/
theorem stages_of_compose
    {r : Registration}
    (h : f.compose v templates = (g, .ok r)) :
    f.refusal? v = none ∧ r = ⟨v, v.placeholders⟩ ∧
      ∃ f₁ f₂,
        f.ensureScalars Vocabulary.builtInScalars = (f₁, none) ∧
        insertTemplated v templates ((f₁.insertTypes v).insertOwnDirectives v)
          FusionDirective.templated = (f₂, none) ∧
        g = { f₂ with config := some v.config } := by
  unfold compose at h
  split at h
  · cases h
  · rename_i ahead
    split at h
    · cases h
    · rename_i f₁ scalars
      dsimp only at h
      split at h
      · cases h
      · rename_i f₂ inserted
        cases h
        exact ⟨ahead, rfl, f₁, f₂, scalars, inserted, rfl⟩

theorem composed_of_compose
    {r : Registration}
    (h : f.compose v templates = (g, .ok r)) :
    Composed v templates f g := by
  obtain ⟨-, -, f₁, f₂, scalars, inserted, rfl⟩ := stages_of_compose h
  have hf₁ : (f.ensureScalars Vocabulary.builtInScalars).1 = f₁ := by rw [scalars]
  have hf₂ : (insertTemplated v templates ((f₁.insertTypes v).insertOwnDirectives v)
      FusionDirective.templated).1 = f₂ := by rw [inserted]
  -- The last stages leave the types alone, the first and the last the applications.
  have types : f₂.schema.types = (f₁.insertTypes v).schema.types := by
    rw [← hf₂, read_insertTemplated (fun f => f.schema.types) (fun _ _ => rfl)]
    exact read_insertOwnDirectives (fun f => f.schema.types) (fun _ _ => rfl) (fun _ _ => rfl) _
  have markedTypes : f₂.isMarkedType = (f₁.insertTypes v).isMarkedType := by
    rw [← hf₂, read_insertTemplated isMarkedType (fun _ _ => rfl)]
    exact read_insertOwnDirectives isMarkedType (fun _ _ => rfl) (fun _ _ => rfl) _
  constructor
  · rfl
  · intro n hn
    obtain ⟨t, ht, scalar⟩ := scalar_of_ensureScalars scalars hn
    refine ⟨t, ?_, scalar⟩
    show f₂.schema.types.get? n = some t
    rw [types]
    have free : n ∉ v.typeNames :=
      Vocabulary.not_mem_typeNames_of_scalar (Vocabulary.mem_scalarNames_of_builtIn hn)
    exact (type?_insertTypes_of_not_mem free).trans ht
  · intro t
    show f₂.schema.types.get? _ = _
    rw [types]
    exact type?_insertTypes f₁ v t
  · intro d hd
    show f₂.schema.directive? d.name = some d
    have own := not_mem_templatedNames_of_own (List.mem_map_of_mem hd)
    rw [← hf₂, directive?_insertTemplated_of_not_mem own]
    exact directive?_insertOwnDirectives hd
  · intro t k htk
    exact directive?_of_insertTemplated (by decide) inserted htk
  · show f₂.schema.definition = _
    rw [← hf₂, read_insertTemplated (fun f => f.schema.definition) (fun _ _ => rfl),
      definition_insertOwnDirectives,
      read_insertTypes (fun f => f.schema.definition) (fun _ _ => rfl), ← hf₁,
      read_ensureScalars (fun f => f.schema.definition) (fun _ _ => rfl)]
  · intro n
    show f₂.isMarkedType n = true ↔ _
    rw [markedTypes, isMarkedType_insertTypes, ← hf₁,
      read_ensureScalars isMarkedType (fun _ _ => rfl)]
  · intro n
    show f₂.isMarkedDirective n = true ↔ _
    rw [isMarkedDirective_of_insertTemplated inserted, isMarkedDirective_insertOwnDirectives,
      read_insertTypes isMarkedDirective (fun _ _ => rfl), ← hf₁,
      read_ensureScalars isMarkedDirective (fun _ _ => rfl), mem_directiveNames_iff, or_assoc]

theorem Composed.mem_types
    (h : Composed v templates f g)
    {n : Name}
    (hn : n ∈ v.typeNames) :
    n ∈ g.schema.types.keys := by
  obtain ⟨t, rfl⟩ := Vocabulary.exists_of_mem_typeNames hn
  exact Table.mem_keys_of_get? (h.types t)

/-- Under every name of a directive, something is registered. -/
theorem Composed.exists_registered
    (h : Composed v templates f g)
    {n : Name}
    (hn : n ∈ v.directiveNames) :
    ∃ d, v.Registers templates d ∧ d.name = n := by
  rcases mem_directiveNames_iff.mp hn with templated | own
  · obtain ⟨k, hk, rfl⟩ := List.mem_map.mp templated
    obtain ⟨⟨t, j⟩, htj, rfl⟩ := List.mem_map.mp hk
    obtain ⟨d, instantiated, -⟩ := h.templated t j htj
    exact ⟨d, .templated htj instantiated, Placeholders.name_of_instantiate instantiated⟩
  · obtain ⟨d, hd, rfl⟩ := List.mem_map.mp own
    exact ⟨d, .own hd, rfl⟩

theorem Composed.directive?_of_registers
    (h : Composed v templates f g)
    {d : DirectiveDef}
    (hd : v.Registers templates d) :
    g.schema.directive? d.name = some d := by
  cases hd with
  | own own => exact h.ownDirectives d own
  | @templated t k _ asked instantiated =>
      obtain ⟨e, instantiated', defined⟩ := h.templated t k asked
      obtain rfl : d = e := Except.ok.inj (instantiated.symm.trans instantiated')
      rwa [Placeholders.name_of_instantiate instantiated]

/-- Under the names of directives there is nothing but what was registered. -/
theorem Composed.registers_of_mem
    (h : Composed v templates f g)
    {d : DirectiveDef}
    (hd : d ∈ g.schema.directives.items)
    (named : d.name ∈ v.directiveNames) :
    v.Registers templates d := by
  obtain ⟨e, registered, same⟩ := h.exists_registered named
  have defined : g.schema.directive? d.name = some e :=
    same ▸ h.directive?_of_registers registered
  have found : g.schema.directive? d.name = some d := Table.get?_key hd
  obtain rfl : d = e := Option.some_inj.mp (found.symm.trans defined)
  exact registered

theorem Composed.mem_directives
    (h : Composed v templates f g)
    {n : Name}
    (hn : n ∈ v.directiveNames) :
    n ∈ g.schema.directives.keys := by
  obtain ⟨d, registered, rfl⟩ := h.exists_registered hn
  exact Table.mem_keys_of_get? (h.directive?_of_registers registered)

end Composed

end Target
end Supergraph
