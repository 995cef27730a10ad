import Supergraph.Fusion.Application
import Supergraph.Proofs.Composition.Edits
import Supergraph.Proofs.Elision

/-!
# Elision undoes composition

A target *overlays* a schema if what is not marked in it is that schema, in its
order, and if only names of the vocabulary are marked.  Every edit of a composition
that goes ahead keeps this, because it marks what it inserts at that moment; and
attaching applications of marked directives does not show after elision.  Hence a
composition that starts from an unmarked schema can be undone at whatever point it
ended.
-/

namespace Supergraph
namespace Target

/-- Less what is marked, the target is this schema, and only names of the vocabulary
are marked.  Inside of the members everything is as it was. -/
structure Overlays (v : Vocabulary) (s : Schema) (f : Target) : Prop where
  types : f.schema.types.items.filter (fun t => !f.isMarkedType t.name) = s.types.items
  directives :
    f.schema.directives.items.filter (fun d => !f.isMarkedDirective d.name) = s.directives.items
  definition : f.schema.definition.elide f.isMarkedDirective = s.definition
  introspection : f.schema.introspection = s.introspection
  markedTypes : ∀ n, f.isMarkedType n = true → n ∈ v.typeNames
  markedDirectives : ∀ n, f.isMarkedDirective n = true → n ∈ v.directiveNames

/-- The schema has the scalars of the language and leaves the names of the vocabulary
free: it has no member and no application on its definition under them. -/
structure Admits (s : Schema) (v : Vocabulary) : Prop where
  scalars : ∀ n ∈ Vocabulary.builtInScalars, n ∈ s.types.keys
  types : ∀ n ∈ v.typeNames, n ∉ s.types.keys
  directives : ∀ n ∈ v.directiveNames, n ∉ s.directives.keys
  applications : ∀ d ∈ s.definition.applications, d.name ∉ v.directiveNames

namespace Overlays

variable {v : Vocabulary} {s : Schema} {f g : Target}

theorem mem_types
    (h : Overlays v s f)
    {t : TypeDef} :
    t ∈ s.types.items ↔ t ∈ f.schema.types.items ∧ f.isMarkedType t.name = false := by
  rw [← h.types, List.mem_filter, Bool.not_eq_true']

theorem mem_directives
    (h : Overlays v s f)
    {d : DirectiveDef} :
    d ∈ s.directives.items ↔
      d ∈ f.schema.directives.items ∧ f.isMarkedDirective d.name = false := by
  rw [← h.directives, List.mem_filter, Bool.not_eq_true']

/-- Inserting and marking a type where the schema has none adds nothing unmarked. -/
theorem insertType
    (h : Overlays v s f)
    {t : TypeDef}
    (named : t.name ∈ v.typeNames)
    (free : t.name ∉ s.types.keys) :
    Overlays v s (f.insertType t) where
  types := by
    refine (Table.filter_unmarked_put (fun n => isMarkedType_insertType) ?_).trans h.types
    intro u hu unmarked hut
    have authored : u ∈ s.types.items := h.mem_types.mpr ⟨hu, unmarked⟩
    have taken : key u ∈ s.types.keys := Table.key_mem_keys authored
    rw [hut] at taken
    exact free taken
  directives := h.directives
  definition := h.definition
  introspection := (introspection_insertType t).trans h.introspection
  markedTypes := by
    intro n hn
    rcases isMarkedType_insertType.mp hn with rfl | hn
    · exact named
    · exact h.markedTypes n hn
  markedDirectives := h.markedDirectives

/-- Inserting and marking a directive that the schema neither defines nor applies adds
nothing unmarked. -/
theorem insertDirective
    (h : Overlays v s f)
    {d : DirectiveDef}
    (named : d.name ∈ v.directiveNames)
    (free : d.name ∉ s.directives.keys)
    (unused : ∀ a ∈ s.definition.applications, a.name ∉ v.directiveNames) :
    Overlays v s (f.insertDirective d) where
  types := h.types
  directives := by
    refine (Table.filter_unmarked_put (fun n => isMarkedDirective_insertDirective) ?_).trans
      h.directives
    intro e he unmarked hed
    have authored : e ∈ s.directives.items := h.mem_directives.mpr ⟨he, unmarked⟩
    have taken : key e ∈ s.directives.keys := Table.key_mem_keys authored
    rw [hed] at taken
    exact free taken
  definition := by
    have names : ∀ n, (f.insertDirective d).isMarkedDirective n = true → n ∈ v.directiveNames := by
      intro n hn
      rcases isMarkedDirective_insertDirective.mp hn with rfl | hn
      · exact named
      · exact h.markedDirectives n hn
    rw [show (f.insertDirective d).schema.definition = f.schema.definition from rfl,
      ← SchemaDef.elide_elide (fun n hn => isMarkedDirective_insertDirective.mpr (Or.inr hn)),
      h.definition]
    refine SchemaDef.elide_eq_self fun a ha => ?_
    rw [← Bool.not_eq_true]
    exact fun marked => unused a ha (names a.name marked)
  introspection := h.introspection
  markedTypes := h.markedTypes
  markedDirectives := by
    intro n hn
    rcases isMarkedDirective_insertDirective.mp hn with rfl | hn
    · exact named
    · exact h.markedDirectives n hn

/-- Applying a marked directive to the schema adds nothing unmarked. -/
theorem replaceApplication
    (h : Overlays v s f)
    {a : Directive}
    (marked : f.isMarkedDirective a.name = true) :
    Overlays v s (f.replaceApplication a) where
  types := h.types
  directives := h.directives
  definition := by
    have same : Directive.elideSourced f.isMarkedDirective
        (f.schema.definition.directives.filter (fun b => b.item.name != a.name) ++
          [⟨.definition, a⟩]) =
        Directive.elideSourced f.isMarkedDirective f.schema.definition.directives := by
      rw [Directive.elideSourced_append marked, Directive.elideSourced, List.filter_filter]
      refine List.filter_congr fun b _ => ?_
      by_cases hb : b.item.name = a.name
      · simp [hb, marked]
      · simp [hb]
    rw [← h.definition]
    simp only [SchemaDef.elide, Target.replaceApplication]
    exact congrArg (fun ds => { f.schema.definition with directives := ds }) same
  introspection := h.introspection
  markedTypes := h.markedTypes
  markedDirectives := h.markedDirectives

/-- Every edit of a composition keeps the overlay. -/
theorem of_edit
    (h : Overlays v s f)
    (admits : Admits s v)
    (edit : Edit v f g) :
    Overlays v s g := by
  cases edit with
  | @addScalar n language absent =>
      obtain ⟨t, ht, rfl⟩ := Table.mem_keys_iff.mp (admits.scalars n language)
      have defined : f.schema.type? (key t) = some t :=
        Table.get?_key (h.mem_types.mp ht).1
      rw [defined] at absent
      cases absent
  | insertType u =>
      have named : (v.typeDef u).name ∈ v.typeNames := by
        rw [v.name_typeDef]
        exact v.typeName_mem u
      exact h.insertType named (admits.types _ named)
  | @insertDirective k d hd =>
      have named : d.name ∈ v.directiveNames := by
        rw [hd]
        exact v.directiveName_mem k
      exact h.insertDirective named (admits.directives _ named) admits.applications
  | applyRoot marked => exact h.replaceApplication marked
  | record =>
      exact ⟨h.types, h.directives, h.definition, h.introspection, h.markedTypes,
        h.markedDirectives⟩

theorem unmarked
    (v : Vocabulary)
    (s : Schema) :
    Overlays v s (Target.unmarked s) where
  types := List.filter_eq_self.mpr (fun _ _ => rfl)
  directives := List.filter_eq_self.mpr (fun _ _ => rfl)
  definition := SchemaDef.elide_eq_self (fun _ _ => rfl)
  introspection := rfl
  markedTypes := fun _ hn => by cases hn
  markedDirectives := fun _ hn => by cases hn

/-- Where the schema applies no directive of the vocabulary, elision gives it back. -/
theorem elide_eq
    (h : Overlays v s f)
    (unused : ∀ d ∈ s.allApplications, d.name ∉ v.directiveNames) :
    f.elide = s := by
  have shown : ∀ d ∈ s.allApplications, f.isMarkedDirective d.name = false := by
    intro d hd
    rw [← Bool.not_eq_true]
    exact fun marked => unused d hd (h.markedDirectives _ marked)
  have types : f.elide.types = s.types := by
    refine Table.ext ((congrArg (List.map _) h.types).trans (map_eq_self fun t ht => ?_))
    refine TypeDef.elide_eq_self fun d hd => shown d ?_
    exact List.mem_append_left _ (List.mem_append_right _ (List.mem_flatMap.mpr ⟨t, ht, hd⟩))
  have directives : f.elide.directives = s.directives := by
    refine Table.ext ((congrArg (List.map _) h.directives).trans (map_eq_self fun x hx => ?_))
    refine DirectiveDef.elide_eq_self fun d hd => shown d ?_
    exact List.mem_append_right _ (List.mem_flatMap.mpr ⟨x, hx, hd⟩)
  refine Schema.ext h.definition directives types ?_
  show f.elide.types.present f.schema.introspection = s.introspection
  rw [types, h.introspection]
  refine List.filter_eq_self.mpr fun n hn => ?_
  exact (s.types.contains_iff n).mpr (s.introspection_sub n hn)

end Overlays

section Composition

variable {s : Schema} {v : Vocabulary} {f g : Target}

/-- A composition that an unmarked schema does not refuse finds the names of the
vocabulary free. -/
theorem admits_of_refusal?_eq_none
    (ahead : (unmarked s).refusal? v = none)
    (scalars : ∀ n ∈ Vocabulary.builtInScalars, ∃ t, s.type? n = some t ∧ t.kind = .scalar)
    (unused : ∀ d ∈ s.allApplications, d.name ∉ v.directiveNames) :
    Admits s v where
  scalars := by
    intro n hn
    obtain ⟨t, ht, _⟩ := scalars n hn
    exact Table.mem_keys_of_get? ht
  types := by
    intro n hn taken
    cases (refusal?_eq_none_iff.mp ahead).2.1 n hn taken
  directives := by
    intro n hn taken
    cases (refusal?_eq_none_iff.mp ahead).2.2 n hn taken
  applications := fun d hd => unused d (List.mem_append_left _ (List.mem_append_left _ hd))

/-- An application of a marked directive is attached somewhere in the schema. -/
inductive Annotation : Target → Target → Prop
  | attach
      {f : Target}
      {s : Schema}
      {d : Directive}
      (marked : f.isMarkedDirective d.name = true)
      (attached : f.schema.Attached d s) :
      Annotation f { f with schema := s }

/-- Elision shows no annotations. -/
theorem elide_eq_of_annotations
    (annotations : Relation.ReflTransGen Annotation f g) :
    g.elide = f.elide := by
  induction annotations with
  | refl => rfl
  | tail _ annotation ih =>
      cases annotation with
      | attach marked attached =>
          rw [← ih]
          exact Schema.elide_eq_of_attached marked attached

/-- **Elision undoes composition.**  A schema that has the scalars of the language,
records no composition and applies no directive of the vocabulary is composed, with
whatever outcome; then applications of marked directives are attached to it.  Elision
gives the schema back as it was. -/
theorem elide_annotated_composition
    (s : Schema)
    (v : Vocabulary)
    (templates : Templates)
    (scalars : ∀ n ∈ Vocabulary.builtInScalars, ∃ t, s.type? n = some t ∧ t.kind = .scalar)
    (unrecorded : Vocabulary.ofApplications? s.definition.applications = none)
    (unused : ∀ d ∈ s.allApplications, d.name ∉ v.directiveNames)
    (annotations : Relation.ReflTransGen Annotation ((ofSchema s).compose v templates).1 g) :
    g.elide = s := by
  have start : ofSchema s = unmarked s := by
    simp only [ofSchema, unrecorded]
  have overlays : Overlays v s ((unmarked s).compose v templates).1 := by
    refine compose_induction templates (Overlays v s) (Overlays.unmarked v s) ?_
    intro ahead _ _ ih edit
    exact ih.of_edit (admits_of_refusal?_eq_none ahead scalars unused) edit
  rw [elide_eq_of_annotations annotations, start]
  exact overlays.elide_eq unused

/-- The target with an application attached, if there is such an element. -/
def annotate (f : Target) (d : Directive) (site : Site) : Target :=
  { f with schema := (f.schema.attach? d site).getD f.schema }

theorem annotations_annotate
    {d : Directive}
    (marked : f.isMarkedDirective d.name = true)
    (site : Site) :
    Relation.ReflTransGen Annotation f (f.annotate d site) := by
  unfold annotate
  cases h : f.schema.attach? d site with
  | none => exact .refl
  | some s => exact .single (.attach marked (Schema.attached_of_attach? h))

/-- What a composition leaves that failed at a template, with marks of private fields
attached to a field and to the author's scalar. -/
def annotatedFailure : Target :=
  (annotate ((ofSchema takenName).compose .underP brokenTemplates).1
      Vocabulary.underP.privateApplication (.field BuiltIn.schemaType BuiltIn.typesField)).annotate
    Vocabulary.underP.privateApplication (.type FusionType.typeName.baseName)

theorem elide_annotatedFailure :
    (∀ n ∈ Vocabulary.builtInScalars,
        ∃ t, takenName.type? n = some t ∧ t.kind = .scalar) ∧
      Vocabulary.ofApplications? takenName.definition.applications = none ∧
      (∀ d ∈ takenName.allApplications, d.name ∉ Vocabulary.underP.directiveNames) ∧
      Relation.ReflTransGen Annotation
        ((ofSchema takenName).compose .underP brokenTemplates).1 annotatedFailure ∧
      annotatedFailure.elide = takenName := by
  have scalars : ∀ n ∈ Vocabulary.builtInScalars,
      ∃ t, takenName.type? n = some t ∧ t.kind = .scalar := by
    have builtIn : ∀ n ∈ Vocabulary.builtInScalars,
        takenName.type? n = some (BuiltIn.scalar n) := by
      decide
    exact fun n hn => ⟨BuiltIn.scalar n, builtIn n hn, rfl⟩
  have unused : ∀ d ∈ takenName.allApplications, d.name ∉ Vocabulary.underP.directiveNames := by
    decide
  have annotations : Relation.ReflTransGen Annotation
      ((ofSchema takenName).compose .underP brokenTemplates).1 annotatedFailure :=
    (annotations_annotate rfl _).trans (annotations_annotate rfl _)
  exact ⟨scalars, rfl, unused, annotations,
    elide_annotated_composition takenName .underP brokenTemplates scalars rfl unused annotations⟩

end Composition

end Target
end Supergraph
