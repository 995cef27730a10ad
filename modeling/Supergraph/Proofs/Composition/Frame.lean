import Supergraph.Proofs.Recovery

/-!
# What compositions leave alone, and what they write

An edit puts a value under a name of the vocabulary, or adds a scalar of the language that is
missing.  So whatever becomes of a composition, all other types and directives are as before,
every entry keeps its place, and what is new stands behind what was there (`Frame`).  What a
composition that succeeded has written, on the other hand, tells nothing about what stood
there before: two schemas that were composed alike define the vocabulary alike
(`DefinesAlike`).  `compose_overlay` says both.
-/

namespace Supergraph

namespace Table

variable {α : Type} [Keyed α] {own : Name → Prop} {t u : Table α}

/-- The second table has come from the first by putting values in under names of a kind: no
entry has moved, new ones stand behind, and under all other names nothing is different. -/
structure ExtendsUnder (own : Name → Prop) (t u : Table α) : Prop where
  places : ∃ new, u.keys = t.keys ++ new
  kept : ∀ n, ¬ own n → u.get? n = t.get? n

theorem ExtendsUnder.refl
    (own : Name → Prop)
    (t : Table α) :
    ExtendsUnder own t t where
  places := ⟨[], (List.append_nil _).symm⟩
  kept := fun _ _ => rfl

theorem ExtendsUnder.put
    (h : ExtendsUnder own t u)
    {x : α}
    (hx : own (key x)) :
    ExtendsUnder own t (u.put x) where
  places := by
    obtain ⟨new, keys⟩ := h.places
    by_cases taken : key x ∈ u.keys
    · exact ⟨new, (keys_put_of_mem taken).trans keys⟩
    · refine ⟨new ++ [key x], ?_⟩
      rw [keys_put_of_not_mem taken, keys, List.append_assoc]
  kept := by
    intro n hn
    have other : n ≠ key x := fun same => hn (same ▸ hx)
    exact (get?_put_of_ne other).trans (h.kept n hn)

end Table

namespace SchemaDef

/-- The applications of directives of other names, with their origins. -/
def applicationsExcept (d : SchemaDef) (n : Name) : List (Sourced Directive) :=
  d.directives.filter (fun a => a.item.name != n)

/-- The applications of the directive of this name, with their origins. -/
def applicationsOf (d : SchemaDef) (n : Name) : List (Sourced Directive) :=
  d.directives.filter (fun a => a.item.name == n)

end SchemaDef

namespace Target

variable {f f' g g' k : Target} {v : Vocabulary} {templates : Templates}

section Frames

/-- Composing with a vocabulary may write the type of this name: it is one of the vocabulary,
or a scalar of the language that was missing. -/
def MayWriteType (v : Vocabulary) (f : Target) (n : Name) : Prop :=
  n ∈ v.typeNames ∨ n ∈ Vocabulary.builtInScalars ∧ f.schema.type? n = none

/-- What composing with a vocabulary leaves alone: types and directives that it does not
write, the places of entries, and on the schema definition all but the root directive. -/
structure Frame (v : Vocabulary) (f g : Target) : Prop where
  types : f.schema.types.ExtendsUnder (MayWriteType v f) g.schema.types
  directives : f.schema.directives.ExtendsUnder (· ∈ v.directiveNames) g.schema.directives
  description : g.schema.definition.description = f.schema.definition.description
  roots : ∀ k, g.schema.definition.root k = f.schema.definition.root k
  applications :
    g.schema.definition.applicationsExcept (v.directiveName .root) =
      f.schema.definition.applicationsExcept (v.directiveName .root)
  introspection : g.schema.introspection = f.schema.introspection

theorem Frame.refl
    (v : Vocabulary)
    (f : Target) :
    Frame v f f where
  types := .refl _ _
  directives := .refl _ _
  description := rfl
  roots := fun _ => rfl
  applications := rfl
  introspection := rfl

/-- In a table that has only grown, nothing is missing that was there. -/
theorem Frame.absent
    (h : Frame v f g)
    {n : Name}
    (absent : g.schema.type? n = none) :
    f.schema.type? n = none := by
  obtain ⟨new, keys⟩ := h.types.places
  refine Option.eq_none_iff_forall_ne_some.mpr fun t defined => ?_
  have mem : n ∈ g.schema.types.keys := by
    rw [keys]
    exact List.mem_append_left new (Table.mem_keys_of_get? defined)
  obtain ⟨u, hu, rfl⟩ := Table.mem_keys_iff.mp mem
  have found : g.schema.type? (key u) = some u := Table.get?_key hu
  rw [found] at absent
  cases absent

/-- Every edit stays within the frame. -/
theorem Frame.of_edit
    (h : Frame v f g)
    (edit : Edit v g k) :
    Frame v f k := by
  cases edit with
  | @addScalar n language absent =>
      have own : MayWriteType v f (key (TypeDef.plainScalar n)) :=
        Or.inr ⟨language, h.absent absent⟩
      exact { h with
        types := h.types.put own
        introspection := (introspection_addScalar n).trans h.introspection }
  | insertType t =>
      have own : MayWriteType v f (key (v.typeDef t)) := by
        rw [key_typeDef, v.name_typeDef]
        exact Or.inl (v.typeName_mem t)
      exact { h with
        types := h.types.put own
        introspection := (introspection_insertType _).trans h.introspection }
  | @insertDirective j d named =>
      have own : key d ∈ v.directiveNames := by
        rw [key_directiveDef, named]
        exact v.directiveName_mem j
      exact { h with directives := h.directives.put own }
  | applyRoot marked =>
      have others :
          (g.replaceApplication v.rootApplication).schema.definition.applicationsExcept
              (v.directiveName .root) =
            g.schema.definition.applicationsExcept (v.directiveName .root) := by
        have root : v.rootApplication.name = v.directiveName .root := rfl
        simp [SchemaDef.applicationsExcept, replaceApplication, List.filter_append,
          List.filter_filter, root]
      exact { h with
        description := h.description
        roots := h.roots
        applications := others.trans h.applications }
  | record => exact { h with }

theorem frame_compose
    (v : Vocabulary)
    (templates : Templates)
    (f : Target) :
    Frame v f (f.compose v templates).1 :=
  compose_induction templates (Frame v f) (.refl v f) (fun _ _ _ h edit => h.of_edit edit)

end Frames

section Results

/-- The schemas have all members of the vocabulary, with the same definitions. -/
structure DefinesAlike (v : Vocabulary) (s s' : Schema) : Prop where
  types : ∀ n ∈ v.typeNames, ∃ t, s.type? n = some t ∧ s'.type? n = some t
  directives : ∀ n ∈ v.directiveNames, ∃ d, s.directive? n = some d ∧ s'.directive? n = some d

/-- What stood in the places of the vocabulary before makes no difference. -/
theorem Composed.definesAlike
    (h : Composed v templates f g)
    (h' : Composed v templates f' g') :
    DefinesAlike v g.schema g'.schema where
  types := by
    intro n hn
    obtain ⟨t, rfl⟩ := Vocabulary.exists_of_mem_typeNames hn
    exact ⟨v.typeDef t, h.types t, h'.types t⟩
  directives := by
    intro n hn
    obtain ⟨d, registered, rfl⟩ := h.exists_registered hn
    exact ⟨d, h.directive?_of_registers registered, h'.directive?_of_registers registered⟩

/-- Of the root directive there is the one application that records the configuration. -/
theorem Composed.applicationsOf_root
    (h : Composed v templates f g) :
    g.schema.definition.applicationsOf (v.directiveName .root) =
      [⟨.definition, v.rootApplication⟩] := by
  have root : v.rootApplication.name = v.directiveName .root := rfl
  rw [h.definition]
  simp [SchemaDef.applicationsOf, List.filter_append, List.filter_filter, root]

/-- **Composition is an overlay that depends on names and templates only.**  Whatever it
answers, a composition stays within its frame.  And of any two targets on which it succeeds
it makes the same: the definitions of the whole vocabulary, the one application of the root
directive, and what is registered. -/
theorem compose_overlay
    (v : Vocabulary)
    (templates : Templates) :
    (∀ f : Target, Frame v f (f.compose v templates).1) ∧
      ∀ (f f' g g' : Target) (r r' : Registration),
        f.compose v templates = (g, .ok r) →
        f'.compose v templates = (g', .ok r') →
        DefinesAlike v g.schema g'.schema ∧
          (∃ a,
            g.schema.definition.applicationsOf (v.directiveName .root) = [a] ∧
              g'.schema.definition.applicationsOf (v.directiveName .root) = [a]) ∧
          r = r' := by
  refine ⟨frame_compose v templates, ?_⟩
  intro f f' g g' r r' h h'
  have composed := composed_of_compose h
  have composed' := composed_of_compose h'
  obtain ⟨-, registered, -⟩ := stages_of_compose h
  obtain ⟨-, registered', -⟩ := stages_of_compose h'
  exact ⟨composed.definesAlike composed',
    ⟨_, composed.applicationsOf_root, composed'.applicationsOf_root⟩,
    registered.trans registered'.symm⟩

/-- A schema that records the prefix `p`, with a scalar in the place of the enum of resolver
kinds. -/
def alteredKind : Schema :=
  (recording [.underP]).put (.type (.plainScalar (Vocabulary.underP.typeName .resolverKind)))

/-- An author's schema and one with an altered member come to the same vocabulary. -/
theorem compose_overlay_alteredKind :
    ((ofSchema takenName).compose .underP .builtIn).2 =
        .ok ⟨.underP, Vocabulary.underP.placeholders⟩ ∧
      ((ofSchema alteredKind).compose .underP .builtIn).2 =
        .ok ⟨.underP, Vocabulary.underP.placeholders⟩ ∧
      DefinesAlike .underP ((ofSchema takenName).compose .underP .builtIn).1.schema
        ((ofSchema alteredKind).compose .underP .builtIn).1.schema := by
  have authored : ((ofSchema takenName).compose .underP .builtIn).2 =
      .ok ⟨.underP, Vocabulary.underP.placeholders⟩ := rfl
  have altered : ((ofSchema alteredKind).compose .underP .builtIn).2 =
      .ok ⟨.underP, Vocabulary.underP.placeholders⟩ := rfl
  exact ⟨authored, altered, ((compose_overlay .underP .builtIn).2 _ _ _ _ _ _
    (Prod.ext rfl authored) (Prod.ext rfl altered)).1⟩

end Results

end Target
end Supergraph
