import Supergraph.Proofs.Composition.Authored
import Supergraph.Proofs.Composition.Rereading
import Supergraph.Proofs.Schema.Arrangement
import Supergraph.Proofs.Validity.Chains

/-!
# Composing valid schemas

A composition that succeeds adds a vocabulary to a schema, and what it adds is plain: scalars,
an enum, one input object, and directive definitions whose arguments refer to nothing else.
So a composed schema carries the schema that it was made from (`carries_compose`), and follows
every rule that the latter follows, as far as the library's own checks go with three
reservations (`composed_isValid`).

* A scalar that was referred to without a definition becomes a type of the schema, and the
  values that are given for it are looked at from then on.
* The library does not ask what is applied to the scalars of the language.  If it is a directive
  of the vocabulary, the directive and the scalar may lead to each other once it is defined.
* A chain of definitions that begins at a scalar of the language has one more member if it
  begins at a directive of the vocabulary, and there is a limit for chains.
-/

namespace Supergraph

namespace Vocabulary

variable {w : Vocabulary}

/-- A type that directives of the vocabulary may refer to. -/
def RefersTo (w : Vocabulary) (n : Name) : Prop :=
  n ∈ builtInScalars ∨ n ∈ w.typeNames

/-- The definition has plain arguments, under free names, that refer to types of the
vocabulary. -/
structure Plain (w : Vocabulary) (d : DirectiveDef) : Prop where
  named : d.name ∈ w.directiveNames
  free : ∀ a ∈ d.arguments, a.name.isReserved = false
  distinct : (d.arguments.map InputValue.name).Nodup
  types : ∀ a ∈ d.arguments, w.RefersTo a.type.innermost
  unapplied : ∀ a ∈ d.arguments, a.directives = []

theorem refersTo_of_lookup?
    {n m : Name}
    (h : w.placeholders.lookup? n = some m) :
    w.RefersTo m := by
  obtain ⟨e, found, rfl⟩ := Option.map_eq_some_iff.mp h
  rcases List.mem_append.mp (List.mem_of_find?_eq_some found) with mem | mem
  · obtain ⟨k, hk, rfl⟩ := List.mem_map.mp mem
    exact Or.inl hk
  · obtain ⟨t, -, rfl⟩ := List.mem_map.mp mem
    exact Or.inr (w.typeName_mem t)

theorem Plain.of_names
    {d : DirectiveDef}
    (named : d.name ∈ w.directiveNames)
    (names : List Name)
    (same : d.arguments.map InputValue.name = names)
    (free : ∀ n ∈ names, n.isReserved = false)
    (distinct : names.Nodup)
    (plain : ∀ a ∈ d.arguments, w.RefersTo a.type.innermost ∧ a.directives = []) :
    w.Plain d where
  named := named
  free := fun a ha => free a.name (same ▸ List.mem_map_of_mem ha)
  distinct := same ▸ distinct
  types := fun a ha => (plain a ha).1
  unapplied := fun a ha => (plain a ha).2

section OwnDirectives

open ArgumentName

theorem plain_ownDirectives
    (w : Vocabulary) :
    ∀ d ∈ w.ownDirectives, w.Plain d := by
  have own : ∀ (n : Name) (t : FusionType) (b : Bool),
      w.RefersTo (InputValue.plain n (.named (w.typeName t) b)).type.innermost ∧
        (InputValue.plain n (.named (w.typeName t) b)).directives = [] :=
    fun _ t _ => ⟨Or.inr (w.typeName_mem t), rfl⟩
  have listed : ∀ (n : Name) (t : FusionType) (b c : Bool),
      w.RefersTo (InputValue.plain n (.list (.named (w.typeName t) b) c)).type.innermost ∧
        (InputValue.plain n (.list (.named (w.typeName t) b) c)).directives = [] :=
    fun _ t _ _ => ⟨Or.inr (w.typeName_mem t), rfl⟩
  intro d hd
  have named : d.name ∈ w.directiveNames := by
    obtain ⟨k, hk⟩ := w.exists_name_of_mem_ownDirectives hd
    exact hk ▸ w.directiveName_mem k
  simp only [ownDirectives, List.mem_cons, List.not_mem_nil, or_false] at hd
  rcases hd with rfl | rfl | rfl | rfl | rfl
  · exact .of_names named [] rfl (List.forall_mem_nil _) List.nodup_nil (List.forall_mem_nil _)
  · refine .of_names named [select, subgraph, arguments, kind] rfl (by decide) (by decide) ?_
    simp only [resolverDef, DirectiveDef.plain, List.forall_mem_cons]
    exact ⟨own _ _ _, own _ _ _, listed _ _ _ _, own _ _ _, List.forall_mem_nil _⟩
  · refine .of_names named [name, select, argument, subgraph] rfl (by decide) (by decide) ?_
    simp only [variableDef, DirectiveDef.plain, List.forall_mem_cons]
    exact ⟨own _ _ _, own _ _ _, own _ _ _, own _ _ _, List.forall_mem_nil _⟩
  · refine .of_names named [subgraph, types] rfl (by decide) (by decide) ?_
    simp only [nodeDef, DirectiveDef.plain, List.forall_mem_cons]
    exact ⟨own _ _ _, listed _ _ _ _, List.forall_mem_nil _⟩
  · refine .of_names named [ArgumentName.qualifier, ArgumentName.qualifyRoot, version] rfl
      (by decide) (by decide) ?_
    simp only [rootDef, DirectiveDef.plain, List.forall_mem_cons]
    exact ⟨own _ _ _, ⟨Or.inl (by decide), rfl⟩, ⟨Or.inl (by decide), rfl⟩,
      List.forall_mem_nil _⟩

end OwnDirectives

/-- What a built-in template is instantiated to. -/
theorem plain_instantiate
    {t : TemplateName}
    {k : FusionDirective}
    {d : DirectiveDef}
    (h : w.placeholders.instantiate (Templates.builtIn t k) (w.directiveName k) = .ok d) :
    w.Plain d := by
  have template : (∀ n ∈ (Templates.builtInDef t).arguments.map InputValue.name,
        n.isReserved = false) ∧
      ((Templates.builtInDef t).arguments.map InputValue.name).Nodup ∧
      ∀ a ∈ (Templates.builtInDef t).arguments, a.directives = [] := by
    cases t <;> decide
  have made := Placeholders.instantiate_directive_eq_ok_iff.mp h
  refine .of_names (by rw [made.name]; exact w.directiveName_mem k) _
    (map_eq_of_forall₂ (made.arguments.imp fun _ _ h => h.name)) template.1 template.2.1
    fun b hb => ?_
  obtain ⟨a, ha, bound⟩ := exists_of_mem_forall₂ made.arguments hb
  exact ⟨refersTo_of_lookup? bound.innermost, bound.directives.trans (template.2.2 a ha)⟩

end Vocabulary

namespace Schema

variable {s : Schema}

/-- The schema has a type of this name that arguments and input fields may be of. -/
def HasInput (s : Schema) (n : Name) : Prop :=
  ∃ t, s.type? n = some t ∧ t.isInput = true

/-- In a valid schema, what is referred to is defined, unless it is a scalar of the language. -/
theorem mem_scalarNames_of_referred
    (parts : s.allPartsValid = true)
    {n : Name}
    (referred : n ∈ s.referredTypes)
    (absent : s.type? n = none) :
    n ∈ BuiltIn.scalarNames := by
  have scalar : ∀ {wanted : TypeDef → Bool} {t : TypeRef}, s.refersTo wanted t = true →
      t.innermost = n → n ∈ BuiltIn.scalarNames := by
    rintro wanted t valid rfl
    simp only [refersTo, absent] at valid
    exact List.contains_iff_mem.mp valid
  simp only [allPartsValid, partTypesValid, argumentTypesValid, Bool.and_eq_true,
    List.all_eq_true] at parts
  rcases List.mem_append.mp referred with referred | referred
  · obtain ⟨t, ht, part⟩ := List.mem_flatMap.mp referred
    obtain ⟨-, ⟨fields, inputs⟩, -⟩ := parts.1 t ht
    rcases List.mem_append.mp part with part | part
    · obtain ⟨f, hf, part⟩ := List.mem_flatMap.mp part
      rcases List.mem_cons.mp part with rfl | part
      · exact scalar (fields f hf).1 rfl
      · obtain ⟨a, ha, named⟩ := List.mem_map.mp part
        exact scalar ((fields f hf).2 a ha) named
    · obtain ⟨a, ha, named⟩ := List.mem_map.mp part
      exact scalar (inputs a ha) named
  · obtain ⟨d, hd, part⟩ := List.mem_flatMap.mp referred
    obtain ⟨a, ha, named⟩ := List.mem_map.mp part
    exact scalar (parts.2 d hd a ha) named

/-- If anything refers to a scalar that templates refer to, it is defined. -/
def DefinesReferred (s : Schema) : Prop :=
  ∀ n ∈ Vocabulary.builtInScalars, n ∈ s.referredTypes → n ∈ s.types.keys

theorem definesReferred_of_parse
    {sdl : String}
    (h : parse sdl = .ok s) :
    s.DefinesReferred :=
  fun _ hn _ => (arranged_of_parse h).1.keys (mem_builtIn_keys_of_scalar hn)

/-- Nothing is referred to in what settling puts in. -/
theorem mem_referredTypes_of_settle
    {n : Name}
    (referred : n ∈ s.settle.referredTypes) :
    n ∈ s.referredTypes := by
  rcases List.mem_append.mp referred with referred | referred
  · obtain ⟨t, ht, part⟩ := List.mem_flatMap.mp referred
    rcases mem_of_mem_settle ht with ⟨m, -, rfl⟩ | kept
    · cases part
    · exact List.mem_append_left _ (List.mem_flatMap.mpr ⟨t, kept, part⟩)
  · exact List.mem_append_right _ referred

/-- A settled schema defines what it refers to, whatever it was before. -/
theorem definesReferred_settle
    (s : Schema) :
    s.settle.DefinesReferred := by
  intro n scalar referred
  have language := Vocabulary.mem_scalarNames_of_builtIn scalar
  have referred : s.referredTypes.contains n = true :=
    List.contains_iff_mem.mpr (mem_referredTypes_of_settle referred)
  rw [types_settle, Table.mem_keys_foldl_put]
  cases defined : s.types.contains n with
  | false =>
      refine Or.inl (List.mem_map.mpr ⟨BuiltIn.scalar n, List.mem_map_of_mem ?_, rfl⟩)
      exact List.mem_filter.mpr ⟨language, by rw [referred, defined]; rfl⟩
  | true =>
      obtain ⟨t, ht, rfl⟩ := Table.mem_keys_iff.mp ((Table.contains_iff _ _).mp defined)
      refine Or.inr (Table.key_mem_keys (List.mem_filter.mpr ⟨ht, ?_⟩))
      rw [show t.name = key t from rfl, referred, Bool.or_true]

/-- No directive of the vocabulary is applied to a scalar of the language. -/
def LeavesScalars (s : Schema) (w : Vocabulary) : Prop :=
  ∀ t ∈ s.types.items, t.isBuiltInScalar = true → ∀ a ∈ t.applications, a.name ∉ w.directiveNames

end Schema

namespace Target

variable {s : Schema} {w : Vocabulary} {templates : Templates} {f g : Target} {r : Registration}

section Members

/-- Where the types of a composed schema come from. -/
theorem type?_of_compose
    (templates : Templates)
    {n : Name}
    {t : TypeDef}
    (defined : (f.compose w templates).1.schema.type? n = some t) :
    f.schema.type? n = some t ∨
      (n ∈ Vocabulary.builtInScalars ∧ t = .plainScalar n) ∨
      ∃ k, n = w.typeName k ∧ t = w.typeDef k := by
  refine compose_induction templates
    (fun g => ∀ t, g.schema.type? n = some t → f.schema.type? n = some t ∨
      (n ∈ Vocabulary.builtInScalars ∧ t = .plainScalar n) ∨
      ∃ k, n = w.typeName k ∧ t = w.typeDef k) (fun _ => Or.inl) ?_ t defined
  intro _ g k ih edit t defined
  cases edit with
  | @addScalar m language absent =>
      by_cases same : n = m
      · subst same
        have put : (g.addScalar n).schema.type? n = some (.plainScalar n) :=
          Table.get?_put_self _ (TypeDef.plainScalar n)
        rw [put] at defined
        cases defined
        exact Or.inr (Or.inl ⟨language, rfl⟩)
      · exact ih t ((Table.get?_put_of_ne same).symm.trans defined)
  | insertType k =>
      by_cases same : n = (w.typeDef k).name
      · subst same
        have put : (g.insertType (w.typeDef k)).schema.type? (w.typeDef k).name =
            some (w.typeDef k) := Table.get?_put_self _ (w.typeDef k)
        rw [put] at defined
        cases defined
        exact Or.inr (Or.inr ⟨k, w.name_typeDef k, rfl⟩)
      · exact ih t ((Table.get?_put_of_ne same).symm.trans defined)
  | insertDirective => exact ih t defined
  | applyRoot => exact ih t defined
  | record => exact ih t defined

theorem mem_directives_of_compose
    (templates : Templates)
    {d : DirectiveDef}
    (hd : d ∈ (f.compose w templates).1.schema.directives.items) :
    d ∈ f.schema.directives.items ∨ d.name ∈ w.directiveNames := by
  refine compose_induction templates
    (fun g => ∀ d ∈ g.schema.directives.items,
      d ∈ f.schema.directives.items ∨ d.name ∈ w.directiveNames) (fun _ => Or.inl) ?_ d hd
  intro _ g k ih edit d hd
  cases edit with
  | @insertDirective k e named =>
      rcases Table.mem_put_iff.mp hd with rfl | ⟨hd, -⟩
      · exact Or.inr (named ▸ w.directiveName_mem k)
      · exact ih d hd
  | addScalar => exact ih d hd
  | insertType => exact ih d hd
  | applyRoot => exact ih d hd
  | record => exact ih d hd

theorem introspection_compose
    (templates : Templates) :
    (f.compose w templates).1.schema.introspection = f.schema.introspection := by
  refine compose_induction templates (fun g => g.schema.introspection = f.schema.introspection)
    rfl ?_
  intro _ g k ih edit
  cases edit with
  | addScalar => exact (introspection_addScalar _).trans ih
  | insertType => exact (introspection_insertType _).trans ih
  | insertDirective => exact ih
  | applyRoot => exact ih
  | record => exact ih

/-- A directive of the vocabulary is as the vocabulary or a template defines it. -/
theorem Composed.plain
    (h : Composed w .builtIn f g)
    {d : DirectiveDef}
    (hd : d ∈ g.schema.directives.items)
    (named : d.name ∈ w.directiveNames) :
    w.Plain d := by
  cases h.registers_of_mem hd named with
  | own own => exact w.plain_ownDirectives d own
  | templated _ instantiated => exact Vocabulary.plain_instantiate instantiated

end Members

namespace Composed

variable (h : Composed w templates f g)

include h

section Types

/-- What directives of the vocabulary refer to may be the type of an argument. -/
theorem hasInput
    {n : Name}
    (own : w.RefersTo n) :
    g.schema.HasInput n := by
  rcases own with language | own
  · obtain ⟨t, defined, scalar⟩ := h.scalars n language
    exact ⟨t, defined, by simp [TypeDef.isInput, scalar]⟩
  · obtain ⟨k, rfl⟩ := Vocabulary.exists_of_mem_typeNames own
    exact ⟨w.typeDef k, h.types k, w.isInput_typeDef k⟩

theorem refersTo_isInput
    {t : TypeRef}
    (own : w.RefersTo t.innermost) :
    g.schema.refersTo TypeDef.isInput t = true := by
  obtain ⟨d, defined, input⟩ := h.hasInput own
  simp only [Schema.refersTo, defined, input]

/-- A type of the vocabulary is modest. -/
theorem modest_typeDef
    (k : FusionType)
    (free : (w.typeName k).isReserved = false) :
    g.schema.Modest (w.typeDef k) := by
  have defined := h.types k
  have scalar : ∀ t, g.schema.type? (w.typeName t) = some (.plainScalar (w.typeName t)) →
      g.schema.isInputObject (w.typeName t) = false := by
    intro t defined
    simp only [Schema.isInputObject, defined]
    rfl
  have plain : g.schema.type? (w.typeName k) = some (.plainScalar (w.typeName k)) →
      g.schema.Modest (.plainScalar (w.typeName k)) := fun defined =>
    Schema.modest_of_scalar rfl rfl free defined
  cases k with
  | argumentDefinition =>
      have name := scalar .typeName (h.types .typeName)
      have type := scalar .type (h.types .type)
      have inputs : g.schema.argumentTypesValid w.argumentDefinition.body.inputFields = true := by
        refine List.all_eq_true.mpr
          (List.forall_mem_cons.mpr ⟨?_, List.forall_mem_singleton.mpr ?_⟩)
        · exact h.refersTo_isInput (Or.inr (w.typeName_mem .typeName))
        · exact h.refersTo_isInput (Or.inr (w.typeName_mem .type))
      have holds : g.schema.heldBy (w.typeName .argumentDefinition) = [] := by
        have always : w.argumentDefinition.body.inputFields.filterMap Schema.alwaysHolds =
            [w.typeName .typeName, w.typeName .type] := rfl
        simp only [Schema.heldBy, defined, Vocabulary.typeDef, always, List.filter_cons, name, type]
        rfl
      refine ⟨?_, rfl, rfl, rfl, rfl, inputs, holds, rfl, List.forall_mem_nil _, ?_⟩
      · have names : ArgumentName.name.isReserved = false ∧
            ArgumentName.type.isReserved = false := by
          decide
        simp [Schema.typeNamesFree, Schema.partNamesFree, Schema.argumentNamesFree,
          Vocabulary.typeDef, Vocabulary.argumentDefinition, TypeBody.fields, TypeBody.values,
          TypeBody.inputFields, InputValue.plain, free, names]
      · exact List.forall_mem_cons.mpr ⟨rfl, List.forall_mem_singleton.mpr rfl⟩
  | resolverKind =>
      have holds : g.schema.heldBy (w.typeName .resolverKind) = [] := by
        simp only [Schema.heldBy, defined]
        rfl
      refine ⟨?_, rfl, rfl, rfl, rfl, rfl, holds, rfl, ?_, List.forall_mem_nil _⟩
      · have names : ∀ k : ResolverKind, k.enumValue.isReserved = false := by
          intro k
          cases k <;> decide
        simp [Schema.typeNamesFree, Schema.partNamesFree, Schema.argumentNamesFree,
          Vocabulary.typeDef, Vocabulary.resolverKind, TypeBody.fields, TypeBody.values,
          TypeBody.inputFields, free, names]
      · exact List.forall_mem_map.mpr (List.forall_mem_map.mpr fun _ _ => rfl)
  | _ => exact plain defined

/-- A directive of the vocabulary is modest. -/
theorem modest_plain
    {d : DirectiveDef}
    (plain : w.Plain d)
    (free : d.name.isReserved = false) :
    g.schema.ModestDirective d where
  namesFree := by
    have arguments : ∀ a ∈ d.arguments, (!a.name.isReserved) = true := fun a ha => by
      rw [plain.free a ha]
      rfl
    simp only [Schema.directiveNamesFree, Schema.argumentNamesFree, free,
      List.all_eq_true.mpr arguments]
    rfl
  distinct := decide_eq_true plain.distinct
  inputs := List.all_eq_true.mpr fun a ha => h.refersTo_isInput (plain.types a ha)
  unapplied := plain.unapplied

end Types

section Chains

omit h in
/-- A scalar that nothing is applied to leads to nothing. -/
theorem referents_of_scalar
    {n : Name}
    {t : TypeDef}
    (defined : g.schema.type? n = some t)
    (scalar : t.kind = .scalar)
    (unapplied : t.applications = []) :
    g.schema.appliedReferents t = [] ∧ g.schema.referents (.type n) = [] := by
  have body : t.body = .scalar := TypeBody.eq_scalar_of_kind scalar
  have applied : g.schema.appliedReferents t = [] := by
    rw [Schema.appliedReferents, unapplied, body]
    rfl
  refine ⟨applied, ?_⟩
  simp only [Schema.referents, defined, applied, body]
  rfl

/-- What directives of the vocabulary refer to ends soon. -/
theorem endsWithin_of_refersTo
    (unapplied : ∀ n ∈ Vocabulary.builtInScalars, ∀ t,
      g.schema.type? n = some t → t.applications = [])
    {n : Name}
    (own : w.RefersTo n) :
    ∀ r ∈ g.schema.typeReferents n, g.schema.EndsWithin 2 r := by
  have scalar : ∀ n t levels, g.schema.type? n = some t → t.kind = .scalar →
      t.applications = [] → g.schema.EndsWithin (levels + 1) (.type n) := by
    intro n t levels defined scalar unapplied
    refine ⟨rfl, ?_⟩
    rw [(referents_of_scalar defined scalar unapplied).2]
    nofun
  rcases own with language | own
  · obtain ⟨t, defined, kind⟩ := h.scalars n language
    have none := unapplied n language t defined
    simp only [Schema.typeReferents, defined]
    split
    · rw [(referents_of_scalar defined kind none).1]
      nofun
    · exact List.forall_mem_singleton.mpr (scalar n t 1 defined kind none)
  · obtain ⟨k, rfl⟩ := Vocabulary.exists_of_mem_typeNames own
    have defined := h.types k
    have added : (w.typeDef k).builtIn = false := by cases k <;> rfl
    simp only [Schema.typeReferents, defined, added]
    refine List.forall_mem_singleton.mpr ?_
    cases k with
    | argumentDefinition =>
        refine ⟨rfl, ?_⟩
        have referents : g.schema.referents (.type (w.typeName .argumentDefinition)) =
            [.type (w.typeName .typeName), .type (w.typeName .type)] := by
          have inputs : g.schema.inputReferents w.argumentDefinition.body.inputFields =
              g.schema.typeReferents (w.typeName .typeName) ++
                g.schema.typeReferents (w.typeName .type) := by
            simp [Schema.inputReferents, Vocabulary.argumentDefinition, TypeBody.inputFields,
              InputValue.plain, Schema.directiveReferents, Vocabulary.required, TypeRef.innermost]
          simp only [Schema.referents, defined, Vocabulary.typeDef, inputs, Schema.typeReferents,
            h.types]
          rfl
        rw [referents]
        refine List.forall_mem_cons.mpr ⟨?_, List.forall_mem_singleton.mpr ?_⟩
        · exact scalar _ _ 0 (h.types .typeName) rfl rfl
        · exact scalar _ _ 0 (h.types .type) rfl rfl
    | resolverKind =>
        refine ⟨rfl, ?_⟩
        have referents : g.schema.referents (.type (w.typeName .resolverKind)) = [] := by
          simp only [Schema.referents, defined]
          rfl
        rw [referents]
        nofun
    | _ => exact scalar _ _ 1 defined rfl rfl

/-- No way from a directive of the vocabulary leads back to it. -/
theorem directiveLeadsOn_plain
    (unapplied : ∀ n ∈ Vocabulary.builtInScalars, ∀ t,
      g.schema.type? n = some t → t.applications = [])
    {d : DirectiveDef}
    (hd : d ∈ g.schema.directives.items)
    (plain : w.Plain d) :
    g.schema.directiveLeadsOn d.name = true := by
  have defined : g.schema.directive? d.name = some d := Table.get?_key hd
  refine Schema.directiveLeadsOn_of_endsWithin (show 2 ≤ maxChain by decide) ?_
  simp only [Schema.referents, defined]
  intro r hr
  obtain ⟨a, ha, hr⟩ := List.mem_flatMap.mp hr
  rw [plain.unapplied a ha] at hr
  exact h.endsWithin_of_refersTo unapplied (plain.types a ha) r hr

end Chains

section Root

theorem conforms_boolean
    (b c : Bool) :
    g.schema.conforms (.boolean b) (.named BuiltIn.boolean c) = true := by
  obtain ⟨t, defined, scalar⟩ := h.scalars BuiltIn.boolean (by decide)
  have named : t.name = BuiltIn.boolean := (Table.get?_eq_some_iff.mp defined).2
  cases builtIn : t.builtIn <;>
    simp [Schema.conforms, TypeRef.innermost, defined, Schema.takesBoolean, named,
      TypeDef.isCustomScalar, TypeDef.isBuiltInScalar, builtIn, scalar]

theorem conforms_version
    (c : Bool) :
    g.schema.conforms (.int Vocabulary.formatVersion) (.named BuiltIn.int c) = true := by
  obtain ⟨t, defined, scalar⟩ := h.scalars BuiltIn.int (by decide)
  have named : t.name = BuiltIn.int := (Table.get?_eq_some_iff.mp defined).2
  have small : Number.fitsInt32 Vocabulary.formatVersion.text.toList = true := by decide
  cases builtIn : t.builtIn <;>
    simp [Schema.conforms, TypeRef.innermost, defined, Schema.takesInt, named, small,
      TypeDef.isCustomScalar, TypeDef.isBuiltInScalar, builtIn, scalar]

/-- The record of the configuration is right on the schema. -/
theorem applicationFits_rootApplication :
    g.schema.applicationFits .schema w.rootApplication = true := by
  have fits := h.fits_rootApplication
  have defined : g.schema.directive? w.rootApplication.name = some w.rootDef :=
    h.ownDirectives w.rootDef (by simp [Vocabulary.ownDirectives])
  have given : ∀ a ∈ w.rootApplication.arguments,
      ∃ p, lookup a.name w.rootDef.arguments = some p ∧
        g.schema.conforms a.value p.type = true ∧ a.value.isNull = false := by
    obtain ⟨q, b, hb⟩ := w
    cases q with
    | none => exact List.forall_mem_singleton.mpr ⟨_, rfl, h.conforms_version _, rfl⟩
    | some q =>
        refine List.forall_mem_cons.mpr ⟨⟨_, rfl, h.conforms_string rfl _ _, rfl⟩, ?_⟩
        exact List.forall_mem_cons.mpr ⟨⟨_, rfl, h.conforms_boolean _ _, rfl⟩,
          List.forall_mem_singleton.mpr ⟨_, rfl, h.conforms_version _, rfl⟩⟩
  have conform : g.schema.argumentsConform w.rootDef w.rootApplication = true :=
    Schema.argumentsConform_of_lookup fun a ha => by
      obtain ⟨p, found, conforms, -⟩ := given a ha
      exact ⟨p, found, conforms⟩
  have complete : Schema.argumentsComplete w.rootDef w.rootApplication = true :=
    Schema.argumentsComplete_of_covers fits.names fun a ha => by
      obtain ⟨-, -, -, nonNull⟩ := given a ha
      exact nonNull
  have distinct : Schema.argumentsDistinct w.rootApplication = true :=
    decide_eq_true fits.names.distinct
  have listed : w.rootDef.locations.contains .schema = true := rfl
  simp only [Schema.applicationFits, defined, listed, conform, complete, distinct, Bool.and_self]

end Root

end Composed

section Results

variable (unrecorded : (ofSchema s).config = none)
  (free : ∀ n ∈ w.typeNames ++ w.directiveNames, n.isReserved = false)
  (h : (ofSchema s).compose w .builtIn = (g, .ok r))

include unrecorded free h

omit free in
/-- Where the types of the schema come from if it had no record. -/
theorem type?_origin
    {n : Name}
    {t : TypeDef}
    (defined : g.schema.type? n = some t) :
    s.type? n = some t ∨ (n ∈ Vocabulary.builtInScalars ∧ t = .plainScalar n) ∨
      ∃ k, n = w.typeName k ∧ t = w.typeDef k := by
  rw [eq_unmarked_of_unrecorded unrecorded] at h
  have hg : ((unmarked s).compose w .builtIn).1 = g := by rw [h]
  exact type?_of_compose (f := unmarked s) .builtIn (hg ▸ defined)

omit free in
theorem directive_origin
    {d : DirectiveDef}
    (hd : d ∈ g.schema.directives.items) :
    d ∈ s.directives.items ∨ w.Plain d := by
  have composed := composed_of_compose h
  rw [eq_unmarked_of_unrecorded unrecorded] at h
  have hg : ((unmarked s).compose w .builtIn).1 = g := by rw [h]
  exact (mem_directives_of_compose (f := unmarked s) .builtIn (hg ▸ hd)).imp_right
    (composed.plain hd)

omit free in
/-- What the schema defines is kept. -/
theorem type?_compose
    {n : Name}
    {t : TypeDef}
    (defined : s.type? n = some t) :
    g.schema.type? n = some t := by
  rw [eq_unmarked_of_unrecorded unrecorded] at h
  have kept : ((unmarked s).compose w .builtIn).1.AuthorsType n t :=
    authorsType_compose .builtIn ⟨defined, rfl⟩
  rw [h] at kept
  exact kept.1

omit free in
theorem directive?_compose
    {n : Name}
    {d : DirectiveDef}
    (defined : s.directive? n = some d) :
    g.schema.directive? n = some d := by
  rw [eq_unmarked_of_unrecorded unrecorded] at h
  have kept : ((unmarked s).compose w .builtIn).1.AuthorsDirective n d :=
    authorsDirective_compose .builtIn ⟨defined, rfl⟩
  rw [h] at kept
  exact kept.1

/-- A type of the composed schema was there before, or it is modest. -/
theorem mem_types_of_compose
    {u : TypeDef}
    (hu : u ∈ g.schema.types.items) :
    s.type? u.name = some u ∨ g.schema.Modest u := by
  have composed := composed_of_compose h
  have defined : g.schema.type? u.name = some u := Table.get?_key hu
  rw [List.forall_mem_append] at free
  rcases type?_origin unrecorded h defined with old | ⟨language, same⟩ | ⟨k, named, same⟩
  · exact Or.inl old
  · refine Or.inr (Schema.modest_of_scalar ?_ ?_ ?_ defined)
    · rw [same]; rfl
    · rw [same]; rfl
    · have plain : ∀ n ∈ Vocabulary.builtInScalars, n.isReserved = false := by decide
      exact plain _ language
  · rw [same]
    exact Or.inr (composed.modest_typeDef k (free.1 _ (w.typeName_mem k)))

theorem carries_compose : s.Carries g.schema := by
  have composed := composed_of_compose h
  constructor
  · intro k
    rw [composed.definition, eq_unmarked_of_unrecorded unrecorded]
    cases k <;> rfl
  · intro n hn
    have hg : ((ofSchema s).compose w .builtIn).1 = g := by rw [h]
    rw [← hg, introspection_compose, eq_unmarked_of_unrecorded unrecorded]
    exact hn
  · exact fun n t defined => Or.inr ⟨t, type?_compose unrecorded h defined, .refl t⟩
  · intro n language absent u defined
    rcases type?_origin unrecorded h defined with old | ⟨-, rfl⟩ | ⟨k, rfl, -⟩
    · rw [absent] at old
      cases old
    · rfl
    · exact absurd (w.typeName_mem k) (Vocabulary.not_mem_typeNames_of_scalar language)
  · intro u hu
    exact (mem_types_of_compose unrecorded free h hu).imp_left fun old => ⟨u, old, .refl u⟩
  · exact fun n d defined => directive?_compose unrecorded h defined
  · intro d hd
    rw [List.forall_mem_append] at free
    exact (directive_origin unrecorded h hd).imp_right fun plain =>
      composed.modest_plain plain (free.2 _ plain.named)

omit free in
theorem leavesOpen_compose
    (parts : s.allPartsValid = true)
    (defined : s.DefinesReferred) :
    s.LeavesOpen g.schema := by
  intro n referred absent
  have language := Schema.mem_scalarNames_of_referred parts referred absent
  refine Option.eq_none_iff_forall_ne_some.mpr fun t found => ?_
  rcases type?_origin unrecorded h found with old | ⟨plain, -⟩ | ⟨k, rfl, -⟩
  · rw [absent] at old
    cases old
  · obtain ⟨u, hu, rfl⟩ := Table.mem_keys_iff.mp (defined n plain referred)
    rw [show s.type? (key u) = some u from Table.get?_key hu] at absent
    cases absent
  · exact Vocabulary.not_mem_typeNames_of_scalar language (w.typeName_mem k)

omit free in
/-- The names of the vocabulary were free. -/
theorem not_mem_typeNames_of_compose
    {n : Name}
    (known : n ∈ s.types.keys) :
    n ∉ w.typeNames := by
  intro own
  have ahead := (stages_of_compose h).1
  rw [eq_unmarked_of_unrecorded unrecorded] at ahead
  cases (refusal?_eq_none_iff.mp ahead).2.1 n own known

omit free in
theorem not_mem_directiveNames_of_compose
    {n : Name}
    (known : n ∈ s.directives.keys) :
    n ∉ w.directiveNames := by
  intro own
  have ahead := (stages_of_compose h).1
  rw [eq_unmarked_of_unrecorded unrecorded] at ahead
  cases (refusal?_eq_none_iff.mp ahead).2.2 n own known

omit free in
/-- The record is added to what is applied to the schema, if this is defined. -/
theorem applications_compose
    (known : ∀ a ∈ s.definition.applications, a.name ∈ s.directives.keys) :
    g.schema.definition.applications = s.definition.applications ++ [w.rootApplication] ∧
      ∀ a ∈ s.definition.applications, a.name ≠ w.rootApplication.name := by
  have other : ∀ a ∈ s.definition.applications, a.name ≠ w.directiveName .root :=
    fun a ha named => not_mem_directiveNames_of_compose unrecorded h (known a ha)
      (named ▸ w.directiveName_mem .root)
  have composed := composed_of_compose h
  rw [eq_unmarked_of_unrecorded unrecorded] at composed
  have kept : s.definition.applications.filter (fun a => a.name != w.directiveName .root) =
      s.definition.applications := List.filter_eq_self.mpr fun a ha => by simpa using other a ha
  refine ⟨?_, other⟩
  rw [← kept, composed.definition]
  simp only [SchemaDef.applications, List.map_append, List.filter_map]
  rfl

omit free in
/-- What is applied to a valid schema is right when the record is added. -/
theorem applicationsFit_definition
    (fit : g.schema.applicationsFit .schema s.definition.applications = true)
    (known : ∀ a ∈ s.definition.applications, a.name ∈ s.directives.keys) :
    g.schema.applicationsFit .schema g.schema.definition.applications = true := by
  have composed := composed_of_compose h
  obtain ⟨applications, other⟩ := applications_compose unrecorded h known
  have admitted :
      g.schema.admits ⟨.schema, s.definition.applications⟩ w.rootApplication = true := by
    have none : s.definition.applications.countP (fun a => a.name == w.rootApplication.name) = 0 :=
      List.countP_eq_zero.mpr fun a ha named => other a ha (beq_iff_eq.mp named)
    simp only [Schema.admits, composed.applicationFits_rootApplication, Place.count, none]
    simp
  have appended := g.schema.applicationsFit_append ⟨.schema, s.definition.applications⟩
    w.rootApplication
  dsimp only at appended
  rw [applications, appended, fit, admitted]
  rfl

/-- No way from a directive that was there before leads back to it if the scalars of the
language have no directive of the vocabulary. -/
theorem directiveLeadsOn_compose
    (parts : s.allPartsValid = true)
    (fit : s.allApplicationsFit = true)
    (finite : s.directivesFinite = true)
    (defined : s.DefinesReferred)
    (leaves : s.LeavesScalars w)
    {d : DirectiveDef}
    (hd : d ∈ s.directives.items) :
    g.schema.directiveLeadsOn d.name = true := by
  have unseen := leavesOpen_compose unrecorded h parts defined
  have scalars : s.KnowsScalars g.schema := by
    intro t ht scalar a ha known
    obtain ⟨e, he, named⟩ := Table.mem_keys_iff.mp known
    rcases directive_origin unrecorded h he with old | plain
    · exact Table.mem_keys_iff.mpr ⟨e, old, named⟩
    · exact absurd (show a.name ∈ w.directiveNames from named ▸ plain.named)
        (leaves t ht scalar a ha)
  have known : d.name ∈ s.directives.keys := Table.mem_keys_iff.mpr ⟨d, hd, rfl⟩
  exact (carries_compose unrecorded free h).directiveLeadsOn unseen scalars fit known
    (List.all_eq_true.mp finite _ known)

omit free in
/-- No way from a directive of the vocabulary leads back to it if nothing is applied to the
scalars that it refers to. -/
theorem directiveLeadsOn_vocabulary
    (unapplied : ∀ n ∈ Vocabulary.builtInScalars, ∀ t, s.type? n = some t → t.applications = [])
    {n : Name}
    (own : n ∈ w.directiveNames) :
    g.schema.directiveLeadsOn n = true := by
  have composed := composed_of_compose h
  have still : ∀ n ∈ Vocabulary.builtInScalars, ∀ t,
      g.schema.type? n = some t → t.applications = [] := by
    intro n language t found
    rcases type?_origin unrecorded h found with old | ⟨-, rfl⟩ | ⟨k, rfl, -⟩
    · exact unapplied n language t old
    · rfl
    · exact absurd (w.typeName_mem k)
        (Vocabulary.not_mem_typeNames_of_scalar (Vocabulary.mem_scalarNames_of_builtIn language))
  obtain ⟨d, registered, rfl⟩ := composed.exists_registered own
  have hd := (Table.get?_eq_some_iff.mp (composed.directive?_of_registers registered)).1
  exact composed.directiveLeadsOn_plain still hd (composed.plain hd own)

/-- **Composition and the checks of the library.**  A composition that succeeds on a valid schema
without a record, with no name of the vocabulary reserved, leaves a schema that follows all rules
but two at any rate.  It follows the one on applications if the schema defines the scalars that it
refers to.  It follows both, if besides no directive of the vocabulary is applied to a scalar of
the language, exactly when the directives of the vocabulary lead on; and they do if nothing is
applied to the scalars that they refer to. -/
theorem composed_isValid
    (valid : s.isValid = true) :
    (g.schema.isValid = true ↔
        g.schema.directivesFinite = true ∧ g.schema.allApplicationsFit = true) ∧
      (s.DefinesReferred → g.schema.allApplicationsFit = true) ∧
      (s.DefinesReferred → s.LeavesScalars w →
        (g.schema.isValid = true ↔
          ∀ n ∈ w.directiveNames, g.schema.directiveLeadsOn n = true)) ∧
      ((∀ n ∈ Vocabulary.builtInScalars, ∀ t, s.type? n = some t → t.applications = []) →
        ∀ n ∈ w.directiveNames, g.schema.directiveLeadsOn n = true) := by
  have carries := carries_compose unrecorded free h
  have composed := composed_of_compose h
  have iff := carries.isValid_iff valid
  simp only [Schema.isValid, Bool.and_eq_true] at valid
  obtain ⟨⟨⟨⟨⟨-, parts⟩, -⟩, -⟩, finite⟩, fit⟩ := valid
  have fits : s.DefinesReferred → g.schema.allApplicationsFit = true := by
    intro defined
    have unseen := leavesOpen_compose unrecorded h parts defined
    have all := fit
    simp only [Schema.allApplicationsFit, Bool.and_eq_true] at all
    exact carries.allApplicationsFit unseen fit
      (applicationsFit_definition unrecorded h (carries.applicationsFit unseen all.1.1)
        fun _ ha => Schema.mem_directives_of_applicationsFit all.1.1 ha)
  refine ⟨iff, fits, fun defined leaves => ?_, fun unapplied n own =>
    directiveLeadsOn_vocabulary unrecorded h unapplied own⟩
  rw [iff, and_iff_left (fits defined)]
  simp only [Schema.directivesFinite, List.all_eq_true]
  constructor
  · intro all n own
    obtain ⟨d, registered, rfl⟩ := composed.exists_registered own
    exact all _ (Table.mem_keys_of_get? (composed.directive?_of_registers registered))
  · intro own n hn
    obtain ⟨d, hd, rfl⟩ := Table.mem_keys_iff.mp hn
    rcases directive_origin unrecorded h hd with old | plain
    · exact directiveLeadsOn_compose unrecorded free h parts fit finite defined leaves old
    · exact own _ plain.named

end Results

end Target

end Supergraph
