import Supergraph.Proofs.Composition.Repetition
import Supergraph.Proofs.Composition.Rereading
import Supergraph.Proofs.Validity.ReadBack

/-!
# Composing what was read back

A schema that was composed, settled, written and read again carries the record of its
composition and has all members of the vocabulary in their places.  The same composition
only applies the root directive once more, and what it leaves is again what the composed
schema is read back as (`recompose`).
-/

namespace Supergraph

section Places

variable {number : Origin → Origin}

/-- What comes from the definition alone stays as it is. -/
theorem Sourced.Regrouped.eq
    {α : Type}
    {xs ys : List (Sourced α)}
    (h : Sourced.Regrouped number [] xs ys)
    (definition : ∀ x ∈ xs, x.origin = .definition) :
    ys = xs := by
  have own : ∀ {zs : List (Sourced α)}, (∀ z ∈ zs, z.origin = .definition) →
      zs = allFrom .definition (fromOrigin .definition zs) := by
    intro zs all
    rw [fromOrigin_eq, List.filter_eq_self.mpr fun z hz => by simp [all z hz], allFrom,
      List.map_map]
    refine (List.map_id zs).symm.trans (List.map_congr_left fun z hz => ?_)
    rw [← all z hz]
    rfl
  have definition' : ∀ y ∈ ys, y.origin = .definition := by
    intro y hy
    have none := List.filter_eq_nil_iff.mp (h.extensions.trans rfl) y hy
    simpa using none
  rw [own definition', h.definition, ← own definition]

theorem TypeBody.Regrouped.eq
    {b c : TypeBody}
    (h : b.Regrouped number [] c)
    (definition : ∀ o ∈ b.origins, o = .definition) :
    c = b := by
  cases h with
  | scalar => rfl
  | object interfaces fields =>
      simp only [TypeBody.origins, List.forall_mem_append, List.forall_mem_map] at definition
      rw [Table.ext (interfaces.eq definition.1), Table.ext (fields.eq definition.2)]
  | interface interfaces fields =>
      simp only [TypeBody.origins, List.forall_mem_append, List.forall_mem_map] at definition
      rw [Table.ext (interfaces.eq definition.1), Table.ext (fields.eq definition.2)]
  | union members =>
      simp only [TypeBody.origins, List.forall_mem_map] at definition
      rw [Table.ext (members.eq definition)]
  | enum values =>
      simp only [TypeBody.origins, List.forall_mem_map] at definition
      rw [Table.ext (values.eq definition)]
  | inputObject fields =>
      simp only [TypeBody.origins, List.forall_mem_map] at definition
      rw [Table.ext (fields.eq definition)]

/-- A type without extensions stays as it is. -/
theorem TypeDef.Regrouped.eq
    {t u : TypeDef}
    (h : t.Regrouped number [] u)
    (definition : ∀ o ∈ t.directives.map Sourced.origin ++ t.body.origins, o = .definition) :
    u = t := by
  rw [List.forall_mem_append, List.forall_mem_map] at definition
  have directives := h.directives.eq definition.1
  have body := h.body.eq definition.2
  obtain ⟨description, name, builtIn, -, -⟩ := h
  cases t
  cases u
  simp only at description name builtIn directives body
  rw [description, name, builtIn, directives, body]

end Places

namespace Target

variable {v q : Schema} {w : Vocabulary} {templates : Templates} {f g : Target} {r : Registration}

section Arrangement

/-- Composition puts its directives behind those of the schema. -/
theorem directives_compose
    (templates : Templates)
    (unmarked : ∀ n, (ofSchema v).isMarkedDirective n = false) :
    ∃ back, ((ofSchema v).compose w templates).1.schema.directives.items =
        v.directives.items ++ back ∧
      ∀ d ∈ back, d.name ∈ w.directiveNames := by
  refine compose_induction templates (fun f => ∃ back, f.schema.directives.items =
    v.directives.items ++ back ∧ ∀ d ∈ back, d.name ∈ w.directiveNames) ?_ ?_
  · rw [schema_ofSchema]
    exact ⟨[], (List.append_nil _).symm, nofun⟩
  · rintro ahead g k ⟨back, items, named⟩ edit
    cases edit with
    | @insertDirective k d own =>
        have named' : d.name ∈ w.directiveNames := own ▸ w.directiveName_mem k
        have fresh : key d ∉ v.directives.items.map key := by
          intro taken
          have marked := (refusal?_eq_none_iff.mp ahead).2.2 _ named'
            (by rw [schema_ofSchema]; exact taken)
          rw [unmarked] at marked
          cases marked
        refine ⟨putInto d back, ?_, fun e he => ?_⟩
        · show putInto d g.schema.directives.items = _
          rw [items, putInto_append_of_not_mem fresh]
        · rcases eq_or_mem_of_mem_putInto he with rfl | he
          · exact named'
          · exact named e he
    | addScalar => exact ⟨back, items, named⟩
    | insertType => exact ⟨back, items, named⟩
    | applyRoot => exact ⟨back, items, named⟩
    | record => exact ⟨back, items, named⟩

/-- A composed schema is arranged if the schema was. -/
theorem arranged_compose
    (arranged : Schema.Arranged v.types)
    (stacked : Schema.Stacked v.directives)
    (unrecorded : (ofSchema v).config = none)
    (h : (ofSchema v).compose w .builtIn = (g, .ok r)) :
    Schema.Arranged g.schema.types ∧ Schema.Stacked g.schema.directives := by
  have composed := composed_of_compose h
  have hg : ((ofSchema v).compose w .builtIn).1 = g := by rw [h]
  constructor
  · have introspection : ∀ n ∈ BuiltIn.introspectionNames, n ∈ BuiltIn.types.keys :=
      fun n hn => Schema.mem_builtIn_keys_iff.mpr (Or.inl hn)
    have kept := compose_types_induction w .builtIn
      (fun n hn => arranged.keys (introspection n hn))
      (fun n hn => arranged.keys (Schema.mem_builtIn_keys_of_scalar hn))
      (isMarkedType_of_unrecorded unrecorded) arranged fun _ _ own free kept => kept.put own free
    rwa [hg] at kept
  · obtain ⟨back, items, named⟩ :=
      directives_compose (w := w) .builtIn (isMarkedDirective_of_unrecorded unrecorded)
    rw [hg] at items
    obtain ⟨front, others, old, replaced, own⟩ := stacked
    refine ⟨front, others ++ back, by rw [items, old, List.append_assoc], replaced, ?_⟩
    rw [List.forall_mem_append]
    refine ⟨own, fun d hd => ?_⟩
    obtain ⟨e, he, plain, same⟩ := composed.exists_directive (named d hd)
    have mem : d ∈ g.schema.directives.items := by
      rw [items]
      exact List.mem_append_right _ hd
    obtain rfl : e = d := List.inj_on_of_nodup_map g.schema.directives.nodup he mem same
    exact plain

end Arrangement

section Recomposition

variable (composed : Composed w .builtIn (ofSchema v) g) (unrecorded : (ofSchema v).config = none)
  (back : g.schema.ReadBack q)

include composed back

/-- A type of the vocabulary is read as itself. -/
theorem type?_readBack
    (k : FusionType) :
    q.type? (w.typeName k) = some (w.typeDef k) := by
  obtain ⟨u, found, one⟩ := back.type?_eq_some (composed.types k)
  have own : (w.typeDef k).builtIn = false := by cases k <;> rfl
  have unextended : (w.typeDef k).extensions = [] := by cases k <;> rfl
  have plain : (w.typeDef k).directives.map Sourced.origin ++ (w.typeDef k).body.origins =
      List.replicate (w.typeDef k).body.origins.length .definition := by
    cases k <;> rfl
  cases one with
  | regrouped _ parts =>
      rw [unextended] at parts
      rw [found, parts.eq fun o ho => List.eq_of_mem_replicate (plain ▸ ho)]
  | renewed spare =>
      have scalar := spare.1
      simp [TypeDef.isBuiltInScalar, own] at scalar

include unrecorded

/-- What is read back has the record of the composition. -/
theorem recorded_readBack :
    Vocabulary.ofApplications? q.definition.applications = some w :=
  composed.ofApplications?_eq unrecorded fun _ =>
    (back.definition.applications_perm (Origin.numbers_renumber _) (List.Subset.refl _)).mem_iff

theorem recognized_readBack :
    (ofSchema q).config = some w.config ∧
      (∀ n, (ofSchema q).isMarkedType n = g.isMarkedType n) ∧
      ∀ n, (ofSchema q).isMarkedDirective n = g.isMarkedDirective n :=
  recognized_of_record composed unrecorded (fun _ hn => back.keys ▸ hn)
    (fun _ hd _ => back.directives ▸ Table.key_mem_keys hd)
    (recorded_readBack composed unrecorded back)

/-- The vocabulary is in place when it is read back. -/
theorem inPlace_readBack : InPlace w .builtIn (ofSchema q) := by
  obtain ⟨config, types, directives⟩ := recognized_readBack composed unrecorded back
  constructor
  · exact config
  · intro n hn
    obtain ⟨t, found, scalar⟩ := composed.scalars n hn
    obtain ⟨u, found', one⟩ := back.type?_eq_some found
    rw [schema_ofSchema]
    exact ⟨u, found', one.kind.trans scalar⟩
  · intro k
    rw [schema_ofSchema]
    exact type?_readBack composed back k
  · intro d hd
    rw [schema_ofSchema, Schema.directive?, back.directives]
    exact composed.ownDirectives d hd
  · intro t k htk
    rw [schema_ofSchema, Schema.directive?, back.directives]
    exact composed.templated t k htk
  · intro n hn
    rw [types]
    exact (composed.markedTypes n).mpr (Or.inl hn)
  · intro n hn
    rw [directives]
    exact (composed.markedDirectives n).mpr (Or.inl hn)

/-- **Composing what was read back** succeeds, and leaves what the composed schema is read
back as, with the same marks. -/
theorem recompose :
    ∃ g', (ofSchema q).compose w .builtIn = (g', .ok ⟨w, w.placeholders⟩) ∧
      g.schema.ReadBack g'.schema ∧
      (∀ n, g'.isMarkedType n = g.isMarkedType n) ∧
      ∀ n, g'.isMarkedDirective n = g.isMarkedDirective n := by
  obtain ⟨-, types, directives⟩ := recognized_readBack composed unrecorded back
  refine ⟨_, (inPlace_readBack composed unrecorded back).compose_eq, ?_, types, directives⟩
  have schema : (ofSchema q).schema = q := schema_ofSchema q
  refine ⟨?_, ?_, ?_, ?_⟩
  · show List.Forall₂ _ _ (ofSchema q).schema.types.items
    rw [schema]
    exact back.types
  · show (ofSchema q).schema.directives = _
    rw [schema]
    exact back.directives
  · -- The root directive is applied again on both sides; it was the last application before.
    have absorbed : g.replaceApplication w.rootApplication = g :=
      replaceApplication_eq_self (congrArg SchemaDef.directives composed.definition)
    have applied := (back.definition.directives.filter fun d =>
      d.name != w.rootApplication.name).append_definition (Origin.numbers_renumber _)
        w.rootApplication
    have same : g.schema.definition.directives.filter
          (fun a => a.item.name != w.rootApplication.name) ++ [⟨.definition, w.rootApplication⟩] =
        g.schema.definition.directives :=
      congrArg (fun g : Target => g.schema.definition.directives) absorbed
    rw [same] at applied
    refine ⟨?_, ?_, fun k => ?_⟩
    · show (ofSchema q).schema.definition.description = _
      rw [schema]
      exact back.definition.description
    · show Sourced.Regrouped _ _ _ ((ofSchema q).schema.definition.directives.filter _ ++ _)
      rw [schema]
      exact applied
    · have root : ((ofSchema q).replaceApplication w.rootApplication).schema.definition.root k =
          (ofSchema q).schema.definition.root k := by cases k <;> rfl
      rw [root, schema]
      exact back.definition.root k
  · show ∀ n ∈ _, n ∈ (ofSchema q).schema.introspection
    rw [schema]
    exact back.introspection

end Recomposition

section Texts

variable {sdl : String}

/-- The text of a settled composed schema is parsed as what it was written from. -/
theorem parse_text_settle
    (parsed : Schema.parse sdl = .ok v)
    (h : (ofSchema v).compose w .builtIn = (g, .ok r)) :
    Schema.parse g.schema.settle.text = Schema.ofDefinitions g.schema.settle.toDefinitions := by
  have start : (ofSchema v).schema.Readable := by
    rw [schema_ofSchema]
    exact Schema.readable_of_parse parsed
  exact Schema.parse_text (readable_compose start Templates.readable_builtIn h).settle
    ((composed_of_compose h).toDefinitions_ne_nil rfl)

/-- **Composing a parsed schema, and again what is written.**  The text of the settled
composed schema is that of a schema that is recognized as composed, and the same composition
leaves on it what the composed schema is read back as. -/
theorem recompose_text
    (parsed : Schema.parse sdl = .ok v)
    (unrecorded : (ofSchema v).config = none)
    (rooted : v.definition.rootsFrom .definition ≠ [])
    (h : (ofSchema v).compose w .builtIn = (g, .ok r)) :
    ∃ q g', Schema.parse g.schema.settle.text = .ok q ∧
      (ofSchema q).config = some w.config ∧
      (ofSchema q).compose w .builtIn = (g', .ok ⟨w, w.placeholders⟩) ∧
      g.schema.ReadBack g'.schema ∧
      (∀ n, g'.isMarkedType n = g.isMarkedType n) ∧
      ∀ n, g'.isMarkedDirective n = g.isMarkedDirective n := by
  have composed := composed_of_compose h
  obtain ⟨arranged, stacked, -⟩ := Schema.arranged_of_parse parsed
  have standard : Schema.Standard g.schema.types := by
    have kept := standard_compose w .builtIn (Schema.standard_of_parse parsed)
      (isMarkedType_of_unrecorded unrecorded)
      fun n hn => arranged.keys (Schema.mem_builtIn_keys_of_scalar hn)
    rwa [h] at kept
  have written : g.schema.definition.isImplicit g.schema.settle.types = false := by
    rw [isImplicit_composed composed]
    simpa using rooted
  obtain ⟨q, reread, -⟩ :=
    Schema.ofDefinitions_toDefinitions (Schema.standard_settle standard) written
  obtain ⟨arranged, stacked⟩ := arranged_compose arranged stacked unrecorded h
  have back := Schema.readBack_of_ofDefinitions arranged stacked written reread
  obtain ⟨g', recomposed, back', types, directives⟩ := recompose composed unrecorded back
  exact ⟨q, g', (parse_text_settle parsed h).trans reread,
    (recognized_readBack composed unrecorded back).1, recomposed, back', types, directives⟩

end Texts

end Target

end Supergraph
