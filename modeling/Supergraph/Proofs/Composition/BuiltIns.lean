import Supergraph.Proofs.Composition.Authored
import Supergraph.Proofs.Recovery

/-!
# What every schema begins with

No prefix leads a name of the vocabulary to a scalar of the language or to a directive of the
language.  The names of the introspection types begin with two underscores, and there is one
way to get there: under the prefix `_` the type `Type` is called `__Type`.  A composition is
then refused, since the name is taken; recovery marks whatever it finds under the names that
it has read, and this type with it.  So the definitions that a schema begins with survive
every run of compositions, but for `__Type` in a schema that records the prefix `_`
(`built_ins_survive_iff`).
-/

namespace Supergraph

namespace Name

/-- The name that is a single underscore. -/
def underscore : Name := ⟨"_", by decide⟩

end Name

namespace BuiltIn

/-- The names of the introspection types without the two underscores. -/
def introspectionBases : List Name :=
  [⟨"Schema", by decide⟩, FusionType.type.baseName, ⟨"TypeKind", by decide⟩,
    ⟨"Field", by decide⟩, ⟨"InputValue", by decide⟩, ⟨"EnumValue", by decide⟩,
    ⟨"Directive", by decide⟩, ⟨"DirectiveLocation", by decide⟩]

theorem introspectionNames_eq :
    introspectionNames = introspectionBases.map Name.underscore.qualify := by
  decide

theorem keys_types :
    types.keys = introspectionNames ++ scalarNames := by
  decide

end BuiltIn

namespace Vocabulary

variable {v : Vocabulary} {n : Name}

/-- The vocabulary has one built-in type under its names, and this with one prefix. -/
theorem mem_typeNames_iff_of_builtIn
    (builtIn : n ∈ BuiltIn.types.keys) :
    n ∈ v.typeNames ↔ n = BuiltIn.typeType ∧ v.qualifier = some .underscore := by
  rw [BuiltIn.keys_types, BuiltIn.introspectionNames_eq, List.mem_append] at builtIn
  rcases builtIn with introspection | scalar
  · obtain ⟨m, base, rfl⟩ := List.mem_map.mp introspection
    have plain : m.hasUnderscore = false := by
      revert m
      decide
    have derived : ∀ t : FusionType,
        t.baseName = m ↔ t = .type ∧ Name.underscore.qualify m = BuiltIn.typeType := by
      intro t
      revert m
      cases t <;> decide
    constructor
    · intro hn
      obtain ⟨t, ht⟩ := exists_of_mem_typeNames hn
      unfold typeName qualify at ht
      split at ht
      · rename_i q prefixed
        obtain ⟨rfl, same⟩ := Name.eq_of_qualify t.hasUnderscore_baseName plain ht
        exact ⟨((derived t).mp same).2, prefixed⟩
      · have := t.hasUnderscore_baseName
        rw [ht, Name.hasUnderscore_qualify] at this
        cases this
    · rintro ⟨named, prefixed⟩
      have typed : v.typeName .type = BuiltIn.typeType := by
        rw [typeName, qualify, prefixed]
        rfl
      exact named.trans typed.symm ▸ v.typeName_mem .type
  · refine iff_of_false (not_mem_typeNames_of_scalar scalar) ?_
    rintro ⟨rfl, -⟩
    revert scalar
    decide

theorem not_mem_directiveNames_of_builtIn
    (builtIn : n ∈ BuiltIn.directives.keys) :
    n ∉ v.directiveNames := by
  have apart : ∀ k : FusionDirective, k.baseName ≠ n := by
    intro k
    revert n
    cases k <;> decide
  have plain : n.hasUnderscore = false := by
    clear apart
    revert n
    decide
  intro hn
  obtain ⟨k, hk⟩ := exists_of_mem_directiveNames hn
  unfold directiveName at hk
  split at hk
  · exact apart k hk
  · rcases v.qualify_eq_or k.baseName with hq | hq
    · exact apart k (hq.symm.trans hk)
    · rw [hk, plain] at hq
      cases hq

end Vocabulary

namespace Schema

/-- The schema is read as one that was composed with the prefix `_`. -/
def RecordsUnderscore (s : Schema) : Prop :=
  ∃ v, Vocabulary.ofApplications? s.definition.applications = some v ∧
    v.qualifier = some .underscore

end Schema

namespace Target

section Marks

variable {f g : Target} {v : Vocabulary} {n : Name}

/-- What is marked at first is what the schema has under the names that it records. -/
theorem isMarkedType_ofSchema_iff
    {s : Schema} :
    (ofSchema s).isMarkedType n = true ↔
      ∃ v, Vocabulary.ofApplications? s.definition.applications = some v ∧
        n ∈ v.typeNames ∧ n ∈ s.types.keys := by
  cases h : Vocabulary.ofApplications? s.definition.applications with
  | none =>
      rw [ofSchema_of_unrecorded h]
      exact iff_of_false nofun nofun
  | some v =>
      rw [ofSchema_of_recorded h, isMarkedType_recover]
      constructor
      · rintro (own | before)
        · exact ⟨v, rfl, own⟩
        · cases before
      · rintro ⟨w, same, own⟩
        cases same
        exact .inl own

theorem isMarkedDirective_ofSchema_iff
    {s : Schema} :
    (ofSchema s).isMarkedDirective n = true ↔
      ∃ v, Vocabulary.ofApplications? s.definition.applications = some v ∧
        n ∈ v.directiveNames ∧ n ∈ s.directives.keys := by
  cases h : Vocabulary.ofApplications? s.definition.applications with
  | none =>
      rw [ofSchema_of_unrecorded h]
      exact iff_of_false nofun nofun
  | some v =>
      rw [ofSchema_of_recorded h, isMarkedDirective_recover]
      constructor
      · rintro (own | before)
        · exact ⟨v, rfl, own⟩
        · cases before
      · rintro ⟨w, same, own⟩
        cases same
        exact .inl own

theorem isMarkedType_of_edit
    (marked : f.isMarkedType n = true)
    (edit : Edit v f g) :
    g.isMarkedType n = true := by
  cases edit with
  | insertType t => exact isMarkedType_insertType.mpr (.inr marked)
  | addScalar language absent => exact marked
  | insertDirective named => exact marked
  | applyRoot applied => exact marked
  | record => exact marked

/-- A mark is never taken off. -/
theorem isMarkedType_compose
    (templates : Templates)
    (marked : f.isMarkedType n = true) :
    (f.compose v templates).1.isMarkedType n = true :=
  compose_induction templates (isMarkedType · n = true) marked
    fun _ _ _ ih edit => isMarkedType_of_edit ih edit

theorem type?_elide_of_marked
    (marked : f.isMarkedType n = true) :
    f.elide.type? n = none := by
  refine Option.eq_none_iff_forall_ne_some.mpr fun t defined => ?_
  obtain ⟨shown, named⟩ := Table.get?_eq_some_iff.mp defined
  obtain ⟨u, hu, rfl⟩ := List.mem_map.mp shown
  have unmarked := (List.mem_filter.mp hu).2
  rw [show u.name = n from named, marked] at unmarked
  cases unmarked

end Marks

section Survival

variable {s : Schema} {n : Name}

/-- The type `t` under this name is the author's and is shown. -/
def KeepsType (f : Target) (n : Name) (t : TypeDef) : Prop :=
  f.AuthorsType n t ∧ f.elide.type? n = some (t.elide f.isMarkedDirective)

/-- The directive `d` under this name is the author's and is shown. -/
def KeepsDirective (f : Target) (n : Name) (d : DirectiveDef) : Prop :=
  f.AuthorsDirective n d ∧ f.elide.directive? n = some (d.elide f.isMarkedDirective)

theorem keepsType_composeAll
    {t : TypeDef}
    (runs : List (Vocabulary × Templates))
    (defined : s.type? n = some t)
    (unmarked : (ofSchema s).isMarkedType n = false) :
    ((ofSchema s).composeAll runs).KeepsType n t := by
  have start : (ofSchema s).AuthorsType n t := ⟨by rwa [schema_ofSchema], unmarked⟩
  have kept : ((ofSchema s).composeAll runs).AuthorsType n t :=
    composeAll_induction (AuthorsType · n t) start
      (fun _ _ templates => authorsType_compose templates) runs
  exact ⟨kept, type?_elide kept.1 kept.2⟩

theorem keepsDirective_composeAll
    {d : DirectiveDef}
    (runs : List (Vocabulary × Templates))
    (defined : s.directive? n = some d)
    (unmarked : (ofSchema s).isMarkedDirective n = false) :
    ((ofSchema s).composeAll runs).KeepsDirective n d := by
  have start : (ofSchema s).AuthorsDirective n d := ⟨by rwa [schema_ofSchema], unmarked⟩
  have kept : ((ofSchema s).composeAll runs).AuthorsDirective n d :=
    composeAll_induction (AuthorsDirective · n d) start
      (fun _ _ templates => authorsDirective_compose templates) runs
  exact ⟨kept, directive?_elide kept.1 kept.2⟩

theorem isMarkedType_builtIn_iff
    (builtIn : n ∈ BuiltIn.types.keys)
    (present : n ∈ s.types.keys) :
    (ofSchema s).isMarkedType n = true ↔ n = BuiltIn.typeType ∧ s.RecordsUnderscore := by
  rw [isMarkedType_ofSchema_iff]
  constructor
  · rintro ⟨v, recorded, own, -⟩
    obtain ⟨named, prefixed⟩ := (Vocabulary.mem_typeNames_iff_of_builtIn builtIn).mp own
    exact ⟨named, v, recorded, prefixed⟩
  · rintro ⟨named, v, recorded, prefixed⟩
    exact ⟨v, recorded, (Vocabulary.mem_typeNames_iff_of_builtIn builtIn).mpr ⟨named, prefixed⟩,
      present⟩

/-- **What every schema begins with, and compositions.**  After any run of compositions the
directives, the scalars and the introspection types that a schema begins with are as they
were, have no mark and are shown by elision, except for `__Type` in a schema that records the
prefix `_`: this type is marked from the start, and elision never shows it. -/
theorem built_ins_survive_iff
    (s : Schema)
    (runs : List (Vocabulary × Templates)) :
    (∀ n d,
      n ∈ BuiltIn.directives.keys →
      s.directive? n = some d →
      ((ofSchema s).composeAll runs).KeepsDirective n d) ∧
      (∀ n t,
        n ∈ BuiltIn.types.keys →
        s.type? n = some t →
        (((ofSchema s).composeAll runs).KeepsType n t ↔
          ¬ (n = BuiltIn.typeType ∧ s.RecordsUnderscore))) ∧
      (s.RecordsUnderscore →
        BuiltIn.typeType ∈ s.types.keys →
        ((ofSchema s).composeAll runs).isMarkedType BuiltIn.typeType = true ∧
          ((ofSchema s).composeAll runs).elide.type? BuiltIn.typeType = none) := by
  have lost : s.RecordsUnderscore → BuiltIn.typeType ∈ s.types.keys →
      ((ofSchema s).composeAll runs).isMarkedType BuiltIn.typeType = true := by
    intro recorded present
    refine composeAll_induction (isMarkedType · BuiltIn.typeType = true) ?_
      (fun _ _ templates => isMarkedType_compose templates) runs
    exact (isMarkedType_builtIn_iff (by decide) present).mpr ⟨rfl, recorded⟩
  refine ⟨?_, ?_, ?_⟩
  · intro n d builtIn defined
    refine keepsDirective_composeAll runs defined ?_
    rw [← Bool.not_eq_true, isMarkedDirective_ofSchema_iff]
    rintro ⟨v, -, own, -⟩
    exact Vocabulary.not_mem_directiveNames_of_builtIn builtIn own
  · intro n t builtIn defined
    have present := Table.mem_keys_of_get? defined
    constructor
    · rintro ⟨⟨-, unmarked⟩, -⟩ ⟨rfl, recorded⟩
      rw [lost recorded present] at unmarked
      cases unmarked
    · intro apart
      refine keepsType_composeAll runs defined ?_
      rwa [← Bool.not_eq_true, isMarkedType_builtIn_iff builtIn present]
  · intro recorded present
    exact ⟨lost recorded present, type?_elide_of_marked (lost recorded present)⟩

/-- The vocabulary under the prefix `_`, with a root directive that has none. -/
def underUnderscore : Vocabulary :=
  ⟨some .underscore, false, nofun⟩

/-- Without a record, the prefix `_` does no harm to `__Type`, since it is refused. -/
theorem typeType_survives :
    ((ofSchema BuiltIn.schema).composeAll [(underUnderscore, .builtIn)]).isMarkedType
      BuiltIn.typeType = false := by
  have unrecorded : ¬ BuiltIn.schema.RecordsUnderscore := by
    rintro ⟨v, recorded, -⟩
    cases recorded
  obtain ⟨t, defined⟩ : ∃ t, BuiltIn.schema.type? BuiltIn.typeType = some t := ⟨_, rfl⟩
  have survives := (built_ins_survive_iff BuiltIn.schema [(underUnderscore, .builtIn)]).2.1
  exact ((survives _ t (by decide) defined).mpr fun lost => unrecorded lost.2).1.2

/-- A record of the prefix `_` costs a schema `__Type`. -/
theorem typeType_lost :
    ¬ ∀ (s : Schema) (runs : List (Vocabulary × Templates)),
      (∀ n ∈ BuiltIn.types.keys, n ∈ s.types.keys) →
      ∀ n t, n ∈ BuiltIn.types.keys → s.type? n = some t →
        ((ofSchema s).composeAll runs).isMarkedType n = false ∧
          ((ofSchema s).composeAll runs).schema.type? n = some t ∧
          n ∈ ((ofSchema s).composeAll runs).elide.types.keys := by
  intro survives
  obtain ⟨t, defined⟩ : ∃ t, (recording [underUnderscore]).type? BuiltIn.typeType = some t :=
    ⟨_, rfl⟩
  have unmarked := (survives (recording [underUnderscore]) [(underUnderscore, .builtIn)]
    (fun n h => h) _ t (by decide) defined).1
  have marked : ((ofSchema (recording [underUnderscore])).composeAll
      [(underUnderscore, .builtIn)]).isMarkedType BuiltIn.typeType = true := by decide +kernel
  rw [marked] at unmarked
  cases unmarked

end Survival

end Target
end Supergraph
