import Supergraph.Fusion.Elision
import Supergraph.Proofs.Recovery
import Supergraph.Proofs.Composition.Merging
import Supergraph.Proofs.Composition.Readable

/-!
# Reading a composed schema again

A composed schema is written as text to be read again later.  Composition adds a plain
scalar where one of the language is missing; the text then defines that scalar, and no text
may do so.  Validation takes out the scalars that nothing refers to, so that it depends on
the schema whether its composition can be read again (`rereads_iff`).
-/

namespace Supergraph

namespace Schema

/-- The text of the schema defines the type. -/
def Defines (s : Schema) (n : Name) : Prop :=
  n ∈ (SystemDefinition.types s.toDefinitions).map TypeText.name

instance (s : Schema) (n : Name) : Decidable (s.Defines n) :=
  inferInstanceAs (Decidable (n ∈ (SystemDefinition.types s.toDefinitions).map TypeText.name))

variable {s : Schema}

theorem defines_iff
    {n : Name} :
    s.Defines n ↔ ∃ t ∈ s.types.items, t.builtIn = false ∧ t.name = n := by
  rw [Defines, types_toDefinitions, List.map_map, List.mem_map]
  constructor
  · rintro ⟨t, ht, rfl⟩
    obtain ⟨ht, own⟩ := List.mem_filter.mp ht
    exact ⟨t, ht, by simpa using own, rfl⟩
  · rintro ⟨t, ht, own, rfl⟩
    exact ⟨t, List.mem_filter.mpr ⟨ht, by simp [own]⟩, rfl⟩

theorem mem_builtIn_keys_iff
    {n : Name} :
    n ∈ BuiltIn.types.keys ↔ n ∈ BuiltIn.introspectionNames ∨ n ∈ BuiltIn.scalarNames := by
  have scalars : (BuiltIn.scalarNames.map BuiltIn.scalar).map key = BuiltIn.scalarNames := by decide
  rw [Table.keys, BuiltIn.types, List.map_append, List.mem_append, scalars]
  rfl

theorem mem_builtIn_keys_of_scalar
    {n : Name}
    (h : n ∈ Vocabulary.builtInScalars) :
    n ∈ BuiltIn.types.keys :=
  mem_builtIn_keys_iff.mpr (Or.inr (Vocabulary.mem_scalarNames_of_builtIn h))

end Schema

namespace Target

variable {v : Schema} {w : Vocabulary} {templates : Templates} {f g : Target} {r : Registration}

section Types

/-- A scalar that is missing is added as one of an author's own. -/
theorem type?_compose_of_absent
    (w : Vocabulary)
    (templates : Templates)
    {n : Name}
    (language : n ∈ BuiltIn.scalarNames)
    (absent : f.schema.type? n = none) :
    let h := (f.compose w templates).1.schema.type? n
    h = none ∨ h = some (.plainScalar n) := by
  refine compose_induction templates
    (fun g => g.schema.type? n = none ∨ g.schema.type? n = some (.plainScalar n)) (Or.inl absent) ?_
  intro _ g k ih edit
  cases edit with
  | @addScalar m =>
      by_cases hnm : n = m
      · subst hnm
        exact Or.inr (Table.get?_put_self _ (TypeDef.plainScalar n))
      · have kept : (g.addScalar m).schema.type? n = g.schema.type? n := Table.get?_put_of_ne hnm
        rwa [kept]
  | insertType t =>
      have hn : n ≠ key (w.typeDef t) := by
        rw [key_typeDef, w.name_typeDef]
        rintro rfl
        exact Vocabulary.not_mem_typeNames_of_scalar language (w.typeName_mem t)
      have kept : (g.insertType (w.typeDef t)).schema.type? n = g.schema.type? n :=
        Table.get?_put_of_ne hn
      rwa [kept]
  | insertDirective => exact ih
  | applyRoot => exact ih
  | record => exact ih

theorem defines_of_absent
    (h : f.compose w templates = (g, .ok r))
    {n : Name}
    (hn : n ∈ Vocabulary.builtInScalars)
    (absent : f.schema.type? n = none) :
    g.schema.Defines n := by
  have added := type?_compose_of_absent w templates
    (Vocabulary.mem_scalarNames_of_builtIn hn) absent
  obtain ⟨t, defined, -⟩ := (composed_of_compose h).scalars n hn
  rw [h] at added
  have plain : g.schema.type? n = some (.plainScalar n) := by
    rcases added with added | added
    · rw [show g.schema.type? n = none from added] at defined
      cases defined
    · exact added
  obtain ⟨mem, named⟩ := Table.get?_eq_some_iff.mp plain
  exact Schema.defines_iff.mpr ⟨_, mem, rfl, named⟩

/-- As long as no scalar is missing, composition puts in the types of its vocabulary, each
under a name that is not one of the language, and no others. -/
theorem compose_types_induction
    (w : Vocabulary)
    (templates : Templates)
    (introspection : ∀ n ∈ BuiltIn.introspectionNames, n ∈ v.types.keys)
    (scalars : ∀ n ∈ Vocabulary.builtInScalars, n ∈ v.types.keys)
    (unmarked : ∀ n, (ofSchema v).isMarkedType n = false)
    {P : Table TypeDef → Prop}
    (start : P v.types)
    (put : ∀ types k, (w.typeDef k).builtIn = false → (w.typeDef k).name ∉ BuiltIn.types.keys →
      P types → P (types.put (w.typeDef k))) :
    P ((ofSchema v).compose w templates).1.schema.types := by
  refine (compose_induction templates (fun f => P f.schema.types ∧
    ∀ n ∈ Vocabulary.builtInScalars, n ∈ f.schema.types.keys) ?_ ?_).1
  · rw [schema_ofSchema]
    exact ⟨start, scalars⟩
  · intro ahead g k ⟨ih, present⟩ edit
    cases edit with
    | @addScalar n language absent =>
        obtain ⟨t, ht, rfl⟩ := Table.mem_keys_iff.mp (present n language)
        have found : g.schema.type? (key t) = some t := Table.get?_key ht
        rw [absent] at found
        cases found
    | insertType t =>
        have own : (w.typeDef t).builtIn = false := by cases t <;> rfl
        have free : (w.typeDef t).name ∉ BuiltIn.types.keys := by
          rw [w.name_typeDef, Schema.mem_builtIn_keys_iff]
          rintro (taken | scalar)
          · have marked := (refusal?_eq_none_iff.mp ahead).2.1 _ (w.typeName_mem t)
              (by rw [schema_ofSchema]; exact introspection _ taken)
            rw [unmarked] at marked
            cases marked
          · exact Vocabulary.not_mem_typeNames_of_scalar scalar (w.typeName_mem t)
        exact ⟨put _ t own free ih, fun n hn => Table.mem_keys_put.mpr (Or.inr (present n hn))⟩
    | insertDirective => exact ⟨ih, present⟩
    | applyRoot => exact ⟨ih, present⟩
    | record => exact ⟨ih, present⟩

/-- As long as no scalar is missing, composition keeps the types under the names of the
language. -/
theorem standard_compose
    (w : Vocabulary)
    (templates : Templates)
    (standard : Schema.Standard v.types)
    (unmarked : ∀ n, (ofSchema v).isMarkedType n = false)
    (scalars : ∀ n ∈ Vocabulary.builtInScalars, n ∈ v.types.keys) :
    Schema.Standard ((ofSchema v).compose w templates).1.schema.types :=
  compose_types_induction w templates standard.introspection scalars unmarked standard
    fun _ _ own free kept => kept.put (Or.inr ⟨own, free⟩)

end Types

section Records

theorem ofApplications?_eq_some
    {ds : List Directive}
    (found : ∃ d ∈ ds, Vocabulary.ofApplication? d = some w)
    (only : ∀ d ∈ ds, ∀ u, Vocabulary.ofApplication? d = some u → u = w) :
    Vocabulary.ofApplications? ds = some w := by
  obtain ⟨d, hd, hdw⟩ := found
  cases h : Vocabulary.ofApplications? ds with
  | none =>
      have none := List.findSome?_eq_none_iff.mp h d hd
      rw [hdw] at none
      cases none
  | some u =>
      obtain ⟨e, he, heu⟩ := List.exists_of_findSome?_eq_some h
      rw [only e he u heu]

/-- Nothing on the schema can be read as a record. -/
theorem ofApplication?_of_unrecorded
    (unrecorded : (ofSchema v).config = none)
    {d : Directive}
    (hd : d ∈ v.definition.applications) :
    Vocabulary.ofApplication? d = none := by
  cases h : Vocabulary.ofApplications? v.definition.applications with
  | none => exact List.findSome?_eq_none_iff.mp h d hd
  | some u =>
      rw [ofSchema_of_recorded h] at unrecorded
      cases unrecorded

theorem eq_unmarked_of_unrecorded
    (unrecorded : (ofSchema v).config = none) :
    ofSchema v = unmarked v := by
  refine ofSchema_of_unrecorded ?_
  cases h : Vocabulary.ofApplications? v.definition.applications with
  | none => rfl
  | some u =>
      rw [ofSchema_of_recorded h] at unrecorded
      cases unrecorded

theorem isMarkedType_of_unrecorded
    (unrecorded : (ofSchema v).config = none)
    (n : Name) :
    (ofSchema v).isMarkedType n = false := by
  rw [eq_unmarked_of_unrecorded unrecorded]
  rfl

theorem isMarkedDirective_of_unrecorded
    (unrecorded : (ofSchema v).config = none)
    (n : Name) :
    (ofSchema v).isMarkedDirective n = false := by
  rw [eq_unmarked_of_unrecorded unrecorded]
  rfl

/-- The directives of the vocabulary are none of the built-in ones. -/
theorem Composed.exists_directive
    (h : Composed w .builtIn f g)
    {n : Name}
    (hn : n ∈ w.directiveNames) :
    ∃ d ∈ g.schema.directives.items, d.builtIn = false ∧ d.name = n := by
  obtain ⟨d, registered, named⟩ := h.exists_registered hn
  have mem : d ∈ g.schema.directives.items :=
    (Table.get?_eq_some_iff.mp (h.directive?_of_registers registered)).1
  refine ⟨d, mem, ?_, named⟩
  cases registered with
  | own own =>
      simp only [Vocabulary.ownDirectives, List.mem_cons, List.not_mem_nil, or_false] at own
      rcases own with rfl | rfl | rfl | rfl | rfl <;> rfl
  | @templated t _ _ _ instantiated =>
      have template : ∀ t, (Templates.builtInDef t).builtIn = false := by
        intro t
        cases t <;> rfl
      have made := Placeholders.instantiate_directive_eq_ok_iff.mp instantiated
      exact made.builtIn.trans (template t)

end Records

section Rereading

variable {s : Schema}

theorem Composed.mem_directives_iff
    (h : Composed w templates f g)
    {o : Origin}
    {d : Directive} :
    ⟨o, d⟩ ∈ g.schema.definition.directives ↔
      (⟨o, d⟩ ∈ f.schema.definition.directives ∧ d.name ≠ w.directiveName .root) ∨
        (o = .definition ∧ d = w.rootApplication) := by
  rw [h.definition]
  simp [List.mem_filter]

/-- A schema with the types and directives of a composed one is recognized as composed if
the record of the composition is all that can be read on it. -/
theorem recognized_of_record
    (h : Composed w .builtIn (ofSchema v) g)
    (unrecorded : (ofSchema v).config = none)
    (types : ∀ n ∈ g.schema.types.keys, n ∈ s.types.keys)
    (directives : ∀ d ∈ g.schema.directives.items, d.builtIn = false → d.name ∈ s.directives.keys)
    (recorded : Vocabulary.ofApplications? s.definition.applications = some w) :
    (ofSchema s).config = some w.config ∧
      (∀ n, (ofSchema s).isMarkedType n = g.isMarkedType n) ∧
      ∀ n, (ofSchema s).isMarkedDirective n = g.isMarkedDirective n := by
  have unmarked := eq_unmarked_of_unrecorded unrecorded
  rw [ofSchema_of_recorded recorded]
  refine ⟨rfl, fun n => ?_, fun n => ?_⟩
  · rw [Bool.eq_iff_iff, isMarkedType_recover, h.markedTypes, unmarked]
    refine or_congr_left ⟨And.left, fun hn => ⟨hn, types n (h.mem_types hn)⟩⟩
  · rw [Bool.eq_iff_iff, isMarkedDirective_recover, h.markedDirectives, unmarked]
    refine or_congr_left ⟨And.left, fun hn => ⟨hn, ?_⟩⟩
    obtain ⟨d, hd, own, rfl⟩ := h.exists_directive hn
    exact directives d hd own

/-- What was applied to the schema before cannot be read as a record. -/
theorem Composed.ofApplication?_eq_none
    (h : Composed w templates (ofSchema v) g)
    (unrecorded : (ofSchema v).config = none)
    {o : Origin}
    {d : Directive}
    (hd : ⟨o, d⟩ ∈ g.schema.definition.directives)
    (other : d ≠ w.rootApplication) :
    Vocabulary.ofApplication? d = none := by
  rcases h.mem_directives_iff.mp hd with ⟨hd, -⟩ | ⟨-, rfl⟩
  · rw [schema_ofSchema] at hd
    exact ofApplication?_of_unrecorded unrecorded (List.mem_map_of_mem (f := Sourced.item) hd)
  · exact absurd rfl other

/-- What is applied to a composed schema records the composition, in whatever order. -/
theorem Composed.ofApplications?_eq
    (h : Composed w templates (ofSchema v) g)
    (unrecorded : (ofSchema v).config = none)
    {ds : List Directive}
    (same : ∀ d, d ∈ ds ↔ d ∈ g.schema.definition.applications) :
    Vocabulary.ofApplications? ds = some w := by
  have root : w.rootApplication ∈ ds :=
    (same _).mpr (List.mem_map_of_mem (f := Sourced.item)
      (h.mem_directives_iff.mpr (Or.inr ⟨rfl, rfl⟩)))
  refine ofApplications?_eq_some ⟨_, root, Vocabulary.ofApplication?_rootApplication w⟩ ?_
  intro d hd u hu
  by_cases hroot : d = w.rootApplication
  · rw [hroot, Vocabulary.ofApplication?_rootApplication] at hu
    exact (Option.some.inj hu).symm
  · obtain ⟨⟨o, d⟩, applied, rfl⟩ := List.mem_map.mp ((same d).mp hd)
    rw [h.ofApplication?_eq_none unrecorded applied hroot] at hu
    cases hu

/-- What can be read on a composed schema that comes back from its definitions: the record
of the composition, if the schema definition is written, and else nothing. -/
theorem ofApplications?_reread
    (h : Composed w templates (ofSchema v) g)
    (unrecorded : (ofSchema v).config = none)
    (reread : Schema.ofDefinitions g.schema.toDefinitions = .ok s) :
    Vocabulary.ofApplications? s.definition.applications =
      if g.schema.definition.isImplicit g.schema.types then none else some w := by
  split
  · rename_i implicit
    refine List.findSome?_eq_none_iff.mpr fun d hd => ?_
    obtain ⟨o, hd, written⟩ := (Schema.mem_applications_of_reread reread).mp hd
    refine h.ofApplication?_eq_none unrecorded hd ?_
    rintro rfl
    rcases h.mem_directives_iff.mp hd with ⟨-, other⟩ | ⟨rfl, -⟩
    · exact other rfl
    · rw [implicit] at written
      cases written rfl
  · rename_i written
    refine h.ofApplications?_eq unrecorded fun d => ?_
    rw [Schema.mem_applications_of_reread reread]
    constructor
    · rintro ⟨o, hd, -⟩
      exact List.mem_map_of_mem (f := Sourced.item) hd
    · intro hd
      obtain ⟨⟨o, d⟩, applied, rfl⟩ := List.mem_map.mp hd
      exact ⟨o, applied, fun _ => by simpa using written⟩

/-- The definition of a composed schema is written exactly if it has a root of its own. -/
theorem isImplicit_composed
    (h : Composed w templates (ofSchema v) g)
    (types : Table TypeDef) :
    g.schema.definition.isImplicit types = (v.definition.rootsFrom .definition).isEmpty := by
  have roots : g.schema.definition.rootsFrom .definition = v.definition.rootsFrom .definition := by
    rw [h.definition, schema_ofSchema]
    rfl
  have applied : g.schema.definition.directives.isEmpty = false := by
    rw [h.definition]
    simp
  rw [SchemaDef.isImplicit, roots, SchemaDef.saysWhatIsImplied, applied]
  simp

end Rereading

section Texts

variable {p : Schema} {sdl : String}

/-- What holds of parsed schemas and is kept by settling holds of schemas that are taken as
they were parsed or as they were validated. -/
theorem of_taken
    {P : Schema → Prop}
    (taken : v = p ∨ p.validated? = some v)
    (parsed : P p)
    (settled : P p.settle) :
    P v := by
  rcases taken with rfl | taken
  · exact parsed
  · unfold Schema.validated? at taken
    split at taken
    · cases taken
      exact settled
    · cases taken

/-- A schema with the directives of a composed one is written as these, if as nothing else. -/
theorem Composed.toDefinitions_ne_nil
    (h : Composed w .builtIn f g)
    {s : Schema}
    (directives : s.directives = g.schema.directives) :
    s.toDefinitions ≠ [] := by
  obtain ⟨d, hd, own, -⟩ := h.exists_directive (w.directiveName_mem .root)
  have written : d ∈ SystemDefinition.directives s.toDefinitions := by
    rw [Schema.directives_toDefinitions, directives]
    exact List.mem_filter.mpr ⟨hd, by simp [own]⟩
  exact List.ne_nil_of_mem (SystemDefinition.mem_of_mem_directives written)

/-- The text of a composed schema is parsed as what it was written from. -/
theorem parse_text_of_taken
    (parsed : Schema.parse sdl = .ok p)
    (taken : v = p ∨ p.validated? = some v)
    (h : (ofSchema v).compose w .builtIn = (g, .ok r)) :
    Schema.parse g.schema.text = Schema.ofDefinitions g.schema.toDefinitions := by
  have readable := Schema.readable_of_parse parsed
  have start : (ofSchema v).schema.Readable := by
    rw [schema_ofSchema]
    exact of_taken taken readable readable.settle
  exact Schema.parse_text (readable_compose start Templates.readable_builtIn h)
    ((composed_of_compose h).toDefinitions_ne_nil rfl)

/-- What elision shows of a schema was defined before. -/
theorem defines_of_defines_elide
    {n : Name}
    (h : g.elide.Defines n) :
    g.schema.Defines n := by
  obtain ⟨t, ht, own, rfl⟩ := Schema.defines_iff.mp h
  obtain ⟨u, hu, rfl⟩ := List.mem_map.mp ht
  exact Schema.defines_iff.mpr ⟨u, (List.mem_filter.mp hu).1, own, rfl⟩

theorem not_defines_of_standard
    (standard : Schema.Standard v.types)
    {n : Name}
    (hn : n ∈ Vocabulary.builtInScalars) :
    ¬ v.Defines n := by
  intro defined
  obtain ⟨t, ht, own, rfl⟩ := Schema.defines_iff.mp defined
  have builtIn := standard.reserved t ht (Schema.mem_builtIn_keys_of_scalar hn)
  rw [own] at builtIn
  cases builtIn

/-- **Reading a composed schema again.**  Let a schema without a record be taken as it was
parsed, or as it was validated, and be composed.  The text of the composed schema is that of
a schema that is recognized as composed, and neither it nor the text without the members of
the composition defines a scalar of the language that was not defined before, exactly if the
schema had all three scalars that the templates refer to, and its definition a root of its
own. -/
theorem rereads_iff
    (parsed : Schema.parse sdl = .ok p)
    (taken : v = p ∨ p.validated? = some v)
    (unrecorded : (ofSchema v).config = none)
    (h : (ofSchema v).compose w .builtIn = (g, .ok r)) :
    ((∃ s, Schema.parse g.schema.text = .ok s ∧
          (ofSchema s).config = some w.config ∧
          (∀ n, (ofSchema s).isMarkedType n = g.isMarkedType n) ∧
          ∀ n, (ofSchema s).isMarkedDirective n = g.isMarkedDirective n) ∧
        ∀ n ∈ Vocabulary.builtInScalars, g.schema.Defines n ∨ g.elide.Defines n → v.Defines n) ↔
      (∀ n ∈ Vocabulary.builtInScalars, n ∈ v.types.keys) ∧
        v.definition.rootsFrom .definition ≠ [] := by
  have composed := composed_of_compose h
  have standard : Schema.Standard v.types :=
    of_taken (P := fun v => Schema.Standard v.types) taken (Schema.standard_of_parse parsed)
      (Schema.standard_settle (Schema.standard_of_parse parsed))
  have implicit := isImplicit_composed composed g.schema.types
  rw [parse_text_of_taken parsed taken h]
  constructor
  · rintro ⟨⟨s, reread, config, -⟩, undefined⟩
    constructor
    · intro n hn
      cases present : v.type? n with
      | some t => exact Table.mem_keys_of_get? present
      | none =>
          have absent : (ofSchema v).schema.type? n = none := by rw [schema_ofSchema]; exact present
          have defined := undefined n hn (Or.inl (defines_of_absent h hn absent))
          exact absurd defined (not_defines_of_standard standard hn)
    · intro rootless
      have record := ofApplications?_reread composed unrecorded reread
      rw [implicit, rootless] at record
      rw [ofSchema_of_unrecorded record] at config
      cases config
  · rintro ⟨scalars, rooted⟩
    have written : g.schema.definition.isImplicit g.schema.types = false := by
      rw [implicit]
      simpa using rooted
    have unmarked := isMarkedType_of_unrecorded unrecorded
    have kept : Schema.Standard g.schema.types := by
      have kept := standard_compose w .builtIn standard unmarked scalars
      rwa [h] at kept
    obtain ⟨s, reread, types, directives⟩ := Schema.ofDefinitions_toDefinitions kept written
    have record := ofApplications?_reread composed unrecorded reread
    rw [written] at record
    refine ⟨⟨s, reread, recognized_of_record composed unrecorded types directives record⟩, ?_⟩
    rintro n hn (defined | defined)
    · exact absurd defined (not_defines_of_standard kept hn)
    · exact absurd (defines_of_defines_elide defined) (not_defines_of_standard kept hn)

end Texts

section Samples

/-- The text of a schema with one field. -/
def oneFieldText (scalar : Name) : String :=
  "type Query \x7b a: " ++ scalar.text ++ " \x7d"

/-- A schema taken as it was parsed has all scalars. -/
theorem rereads_parsed :
    ∃ s, Schema.parse composedField.schema.text = .ok s ∧
      (ofSchema s).config = some Vocabulary.bare.config := by
  have parsed : Schema.parse (oneFieldText BuiltIn.int) = .ok (oneField BuiltIn.int) := by
    decide +kernel
  have complete : (∀ n ∈ Vocabulary.builtInScalars, n ∈ (oneField BuiltIn.int).types.keys) ∧
      (oneField BuiltIn.int).definition.rootsFrom .definition ≠ [] := by
    decide +kernel
  obtain ⟨⟨s, reread, config, -⟩, -⟩ :=
    (rereads_iff parsed (Or.inl rfl) rfl compose_oneField).mpr complete
  exact ⟨s, reread, config⟩

/-- The schema as it was validated, without the scalars that nothing refers to. -/
def settledField : Schema :=
  (oneField BuiltIn.string).settle

/-- Taken as it was validated, a schema may lack `Int`.  Then its composition defines `Int`,
shows the definition, and has a text that is refused. -/
theorem not_rereads_validated :
    Schema.parse (oneFieldText BuiltIn.string) = .ok (oneField BuiltIn.string) ∧
      (oneField BuiltIn.string).validated? = some settledField ∧
      (ofSchema settledField).config = none ∧
      ((ofSchema settledField).compose .bare .builtIn).2 =
        .ok ⟨.bare, Vocabulary.bare.placeholders⟩ ∧
      ¬ settledField.Defines BuiltIn.int ∧
      (composedBare settledField).schema.Defines BuiltIn.int ∧
      (composedBare settledField).elide.Defines BuiltIn.int ∧
      Schema.parse (composedBare settledField).schema.text = .error .typeDefinedTwice := by
  have parsed : Schema.parse (oneFieldText BuiltIn.string) = .ok (oneField BuiltIn.string) := by
    decide +kernel
  have valid : (oneField BuiltIn.string).isValid = true := by
    decide +kernel
  have taken : (oneField BuiltIn.string).validated? = some settledField := if_pos valid
  have composed : (ofSchema settledField).compose .bare .builtIn =
      (composedBare settledField, .ok ⟨.bare, Vocabulary.bare.placeholders⟩) :=
    Prod.ext rfl rfl
  have undefinable : Schema.ofDefinitions (composedBare settledField).schema.toDefinitions =
      .error .typeDefinedTwice := by
    decide +kernel
  exact ⟨parsed, taken, rfl, rfl, by decide +kernel, by decide +kernel, by decide +kernel,
    (parse_text_of_taken parsed (Or.inr taken) composed).trans undefinable⟩

end Samples

end Target

end Supergraph
