import Supergraph.Fusion.Elision
import Supergraph.Proofs.Composition.Edits

/-!
# Authored members survive

A member that is in the schema without a mark was put there by an author.  No
composition replaces it or marks it: a composition that goes ahead has found every
member under its names marked, and all of its edits are made under these names.
Hence a run of compositions keeps every authored member as it is, whatever the
vocabularies and templates, and wherever one of them fails; elision shows it, less
the applications of marked directives.
-/

namespace Supergraph
namespace Target

section Elision

theorem type?_elide
    {f : Target}
    {n : Name}
    {t : TypeDef}
    (defined : f.schema.type? n = some t)
    (unmarked : f.isMarkedType n = false) :
    f.elide.type? n = some (t.elide f.isMarkedDirective) := by
  have hn : t.name = n := (Table.get?_eq_some_iff.mp defined).2
  refine Table.get?_mapValues (f := TypeDef.elide f.isMarkedDirective) (fun _ => rfl)
    (Table.get?_filter defined ?_)
  rw [hn, unmarked]
  rfl

theorem directive?_elide
    {f : Target}
    {n : Name}
    {d : DirectiveDef}
    (defined : f.schema.directive? n = some d)
    (unmarked : f.isMarkedDirective n = false) :
    f.elide.directive? n = some (d.elide f.isMarkedDirective) := by
  have hn : d.name = n := (Table.get?_eq_some_iff.mp defined).2
  refine Table.get?_mapValues (f := DirectiveDef.elide f.isMarkedDirective) (fun _ => rfl)
    (Table.get?_filter defined ?_)
  rw [hn, unmarked]
  rfl

end Elision

section Members

/-- The type under this name is `t`, and it is not marked. -/
def AuthorsType (f : Target) (n : Name) (t : TypeDef) : Prop :=
  f.schema.type? n = some t ∧ f.isMarkedType n = false

/-- The directive under this name is `d`, and it is not marked. -/
def AuthorsDirective (f : Target) (n : Name) (d : DirectiveDef) : Prop :=
  f.schema.directive? n = some d ∧ f.isMarkedDirective n = false

variable {f g : Target} {v : Vocabulary} {n : Name}

theorem authorsType_of_edit
    {t : TypeDef}
    (fresh : n ∉ v.typeNames)
    (authored : f.AuthorsType n t)
    (edit : Edit v f g) :
    g.AuthorsType n t := by
  obtain ⟨defined, unmarked⟩ := authored
  cases edit with
  | @addScalar m language absent =>
      have hnm : n ≠ m := by
        rintro rfl
        rw [absent] at defined
        cases defined
      exact ⟨(Table.get?_put_of_ne hnm).trans defined, unmarked⟩
  | insertType u =>
      have hnu : n ≠ (v.typeDef u).name := by
        rintro rfl
        exact fresh (v.name_typeDef u ▸ v.typeName_mem u)
      refine ⟨(Table.get?_put_of_ne hnu).trans defined, ?_⟩
      rw [← Bool.not_eq_true, isMarkedType_insertType, not_or, Bool.not_eq_true]
      exact ⟨hnu, unmarked⟩
  | insertDirective named => exact ⟨defined, unmarked⟩
  | applyRoot marked => exact ⟨defined, unmarked⟩
  | record => exact ⟨defined, unmarked⟩

theorem authorsDirective_of_edit
    {d : DirectiveDef}
    (fresh : n ∉ v.directiveNames)
    (authored : f.AuthorsDirective n d)
    (edit : Edit v f g) :
    g.AuthorsDirective n d := by
  obtain ⟨defined, unmarked⟩ := authored
  cases edit with
  | @insertDirective k e named =>
      have hne : n ≠ e.name := by
        rintro rfl
        exact fresh (named ▸ v.directiveName_mem k)
      refine ⟨(Table.get?_put_of_ne hne).trans defined, ?_⟩
      rw [← Bool.not_eq_true, isMarkedDirective_insertDirective, not_or, Bool.not_eq_true]
      exact ⟨hne, unmarked⟩
  | addScalar language absent => exact ⟨defined, unmarked⟩
  | insertType u => exact ⟨defined, unmarked⟩
  | applyRoot marked => exact ⟨defined, unmarked⟩
  | record => exact ⟨defined, unmarked⟩

/-- A composition keeps an authored type: under a name of the vocabulary it would
have been refused. -/
theorem authorsType_compose
    {t : TypeDef}
    (templates : Templates)
    (authored : f.AuthorsType n t) :
    (f.compose v templates).1.AuthorsType n t := by
  refine compose_induction templates (AuthorsType · n t) authored ?_
  intro ahead g k ih edit
  refine authorsType_of_edit ?_ ih edit
  intro hn
  have marked := (refusal?_eq_none_iff.mp ahead).2.1 n hn (Table.mem_keys_of_get? authored.1)
  rw [authored.2] at marked
  cases marked

/-- A composition keeps an authored directive definition. -/
theorem authorsDirective_compose
    {d : DirectiveDef}
    (templates : Templates)
    (authored : f.AuthorsDirective n d) :
    (f.compose v templates).1.AuthorsDirective n d := by
  refine compose_induction templates (AuthorsDirective · n d) authored ?_
  intro ahead g k ih edit
  refine authorsDirective_of_edit ?_ ih edit
  intro hn
  have marked := (refusal?_eq_none_iff.mp ahead).2.2 n hn (Table.mem_keys_of_get? authored.1)
  rw [authored.2] at marked
  cases marked

/-- **No authored member is lost.**  After any run of compositions, and so after
every part of one, each member that the schema began with, other than those marked
from the start, has its own definition, has no mark, and is shown by elision. -/
theorem authored_members_survive
    (s : Schema)
    (runs : List (Vocabulary × Templates)) :
    (∀ n t,
      s.type? n = some t →
      (ofSchema s).isMarkedType n = false →
      ((ofSchema s).composeAll runs).schema.type? n = some t ∧
        ((ofSchema s).composeAll runs).isMarkedType n = false ∧
        ((ofSchema s).composeAll runs).elide.type? n =
          some (t.elide ((ofSchema s).composeAll runs).isMarkedDirective)) ∧
      ∀ n d,
        s.directive? n = some d →
        (ofSchema s).isMarkedDirective n = false →
        ((ofSchema s).composeAll runs).schema.directive? n = some d ∧
          ((ofSchema s).composeAll runs).isMarkedDirective n = false ∧
          ((ofSchema s).composeAll runs).elide.directive? n =
            some (d.elide ((ofSchema s).composeAll runs).isMarkedDirective) := by
  constructor
  · intro n t defined unmarked
    have start : (ofSchema s).AuthorsType n t := ⟨by rwa [schema_ofSchema], unmarked⟩
    obtain ⟨kept, free⟩ : ((ofSchema s).composeAll runs).AuthorsType n t :=
      composeAll_induction (AuthorsType · n t) start
        (fun _ _ templates => authorsType_compose templates) runs
    exact ⟨kept, free, type?_elide kept free⟩
  · intro n d defined unmarked
    have start : (ofSchema s).AuthorsDirective n d := ⟨by rwa [schema_ofSchema], unmarked⟩
    obtain ⟨kept, free⟩ : ((ofSchema s).composeAll runs).AuthorsDirective n d :=
      composeAll_induction (AuthorsDirective · n d) start
        (fun _ _ templates => authorsDirective_compose templates) runs
    exact ⟨kept, free, directive?_elide kept free⟩

/-- A composition under the name is refused, one with a prefix fails at a template, and
the same one succeeds in the end. -/
theorem authored_scalar_survives :
    takenName.type? FusionType.typeName.baseName =
        some (.plainScalar FusionType.typeName.baseName) ∧
      (ofSchema takenName).isMarkedType FusionType.typeName.baseName = false ∧
      ((ofSchema takenName).composeAll
          [(.bare, .builtIn), (.underP, brokenTemplates), (.underP, .builtIn)]).schema.type?
        FusionType.typeName.baseName = some (.plainScalar FusionType.typeName.baseName) := by
  have defined : takenName.type? FusionType.typeName.baseName =
      some (.plainScalar FusionType.typeName.baseName) := rfl
  have unmarked : (ofSchema takenName).isMarkedType FusionType.typeName.baseName = false := rfl
  have survives := authored_members_survive takenName
    [(.bare, .builtIn), (.underP, brokenTemplates), (.underP, .builtIn)]
  exact ⟨defined, unmarked, (survives.1 _ _ defined unmarked).1⟩

end Members

end Target
end Supergraph
