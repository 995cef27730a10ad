import Supergraph.Proofs.Composition.Success
import Supergraph.Proofs.Schema.Readable

/-!
# Compositions with a text that can be read

Composing a readable schema by readable templates gives a readable schema
(`readable_compose`): all definitions of the vocabulary are readable, and an instance of a
template has the same wrappings as the template.
-/

namespace Supergraph

section Definitions

namespace TypeRef

theorem Readable.of_wrapping
    {t u : TypeRef}
    (h : t.Readable)
    (same : u.wrapping = t.wrapping) :
    u.Readable := by
  rw [Readable, readableWithin_iff, same]
  exact readableWithin_iff.mp h

end TypeRef

@[simp] theorem InputValue.readable_plain_iff
    {n : Name}
    {t : TypeRef} :
    (plain n t).Readable ↔ t.Readable :=
  ⟨Readable.type, fun h => ⟨h, nofun, nofun⟩⟩

@[simp] theorem DirectiveDef.readable_plain_iff
    {n : Name}
    {arguments : List InputValue}
    {repeatable : Bool}
    {locations : List Location} :
    (plain n arguments repeatable locations).Readable ↔
      (∀ a ∈ arguments, a.Readable) ∧ locations ≠ [] :=
  ⟨fun h => ⟨h.arguments, h.locations⟩, fun h => ⟨h.1, h.2⟩⟩

namespace Vocabulary

theorem readable_typeDef
    (v : Vocabulary)
    (t : FusionType) :
    (v.typeDef t).Readable := by
  have scalar : ∀ n, (TypeDef.plainScalar n).Readable := fun _ => ⟨nofun, trivial⟩
  have kind : ∀ k : ResolverKind, EnumValue.isReservedWord k.enumValue = false := by
    intro k
    cases k <;> decide
  cases t
  case argumentDefinition =>
    refine ⟨nofun, List.forall_mem_cons.mpr ⟨?_, List.forall_mem_singleton.mpr ?_⟩⟩
    · exact InputValue.readable_plain_iff.mpr (TypeRef.readable_named _ _)
    · exact InputValue.readable_plain_iff.mpr (TypeRef.readable_named _ _)
  case resolverKind => exact ⟨nofun, List.forall_mem_map.mpr fun k _ => ⟨kind k, nofun⟩⟩
  all_goals exact scalar _

theorem readable_rootApplication
    (v : Vocabulary) :
    v.rootApplication.Readable := by
  obtain ⟨q, b, h⟩ := v
  cases q with
  | none => simp [rootApplication, Directive.Readable]
  | some q => simp [rootApplication, Directive.Readable]

theorem readable_ownDirectives
    (v : Vocabulary) :
    ∀ d ∈ v.ownDirectives, d.Readable := by
  simp [ownDirectives, privateDef, resolverDef, variableDef, nodeDef, rootDef, nullable, required]

end Vocabulary

/-- The templates that are directives can be read. -/
def Templates.Readable (templates : Templates) : Prop :=
  ∀ t k d, templates t k = .directive d → d.Readable

theorem Templates.readable_builtIn :
    Templates.Readable .builtIn := by
  intro t k d h
  cases h
  cases t <;> simp [builtInDef, placeholder]

namespace Placeholders

variable {p : Placeholders}

theorem readable_instantiate
    {template d : DirectiveDef}
    {n : Name}
    (h : template.Readable)
    (instantiated : p.instantiate (.directive template) n = .ok d) :
    d.Readable := by
  have made := instantiate_directive_eq_ok_iff.mp instantiated
  refine ⟨fun b hb => ?_, made.locations ▸ h.locations⟩
  obtain ⟨a, ha, bound⟩ := exists_of_mem_forall₂ made.arguments hb
  have readable := h.arguments a ha
  exact ⟨readable.type.of_wrapping bound.wrapping, bound.default ▸ readable.default,
    bound.directives ▸ readable.directives⟩

end Placeholders

end Definitions

namespace Target

variable {v : Vocabulary} {templates : Templates} {f g : Target}

theorem Composed.readable_directive
    (h : Composed v templates f g)
    (readable : templates.Readable)
    {d : DirectiveDef}
    (hd : d ∈ g.schema.directives.items)
    (named : d.name ∈ v.directiveNames) :
    d.Readable := by
  cases h.registers_of_mem hd named with
  | own own => exact v.readable_ownDirectives d own
  | @templated t k _ _ instantiated =>
      cases member : templates t k with
      | type u =>
          rw [member] at instantiated
          cases instantiated
      | directive template =>
          rw [member] at instantiated
          exact Placeholders.readable_instantiate (readable t k template member) instantiated

/-- What an edit adds is readable, or is a directive of the vocabulary. -/
theorem readable_of_edit
    (types : ∀ t ∈ f.schema.types.items, t.Readable)
    (directives : ∀ d ∈ f.schema.directives.items, d.Readable ∨ d.name ∈ v.directiveNames)
    (edit : Edit v f g) :
    (∀ t ∈ g.schema.types.items, t.Readable) ∧
      ∀ d ∈ g.schema.directives.items, d.Readable ∨ d.name ∈ v.directiveNames := by
  have put : ∀ u : TypeDef, u.Readable → ∀ t ∈ (f.schema.types.put u).items, t.Readable := by
    intro u hu t ht
    rcases Table.mem_put_iff.mp ht with rfl | ⟨ht, -⟩
    · exact hu
    · exact types t ht
  cases edit with
  | addScalar => exact ⟨put _ ⟨nofun, trivial⟩, directives⟩
  | insertType t => exact ⟨put _ (v.readable_typeDef t), directives⟩
  | @insertDirective k d named =>
      refine ⟨types, fun e he => ?_⟩
      rcases Table.mem_put_iff.mp he with rfl | ⟨he, -⟩
      · exact Or.inr (named ▸ v.directiveName_mem k)
      · exact directives e he
  | applyRoot => exact ⟨types, directives⟩
  | record => exact ⟨types, directives⟩

/-- **A composed schema is readable** if the schema and the templates were. -/
theorem readable_compose
    {r : Registration}
    (readable : f.schema.Readable)
    (usable : templates.Readable)
    (h : f.compose v templates = (g, .ok r)) :
    g.schema.Readable := by
  have composed := composed_of_compose h
  obtain ⟨types, directives⟩ := compose_induction templates
    (fun g => (∀ t ∈ g.schema.types.items, t.Readable) ∧
      ∀ d ∈ g.schema.directives.items, d.Readable ∨ d.name ∈ v.directiveNames)
    (f := f) (v := v) ⟨readable.types, fun d hd => Or.inl (readable.directives d hd)⟩
    fun _ g k ih edit => readable_of_edit ih.1 ih.2 edit
  rw [h] at types directives
  refine ⟨?_, fun d hd => ?_, types⟩
  · rw [SchemaDef.applications, composed.definition, List.map_append, List.forall_mem_append]
    constructor
    · refine List.forall_mem_map.mpr fun d hd => ?_
      exact List.forall_mem_map.mp readable.applications d (List.mem_filter.mp hd).1
    · exact List.forall_mem_singleton.mpr v.readable_rootApplication
  · rcases directives d hd with hd' | named
    · exact hd'
    · exact composed.readable_directive usable hd named

end Target

end Supergraph
