import Supergraph.Proofs.Schema.Rewriting
import Supergraph.Proofs.Validity.Chains

/-!
# Validity of what was read back

What a settled schema is read as carries the schema, and brings nothing but scalars of the
language besides.  So it is valid if the schema is (`ReadBack.isValid`).
-/

namespace Supergraph
namespace Schema

variable {s s' : Schema}

section Carrying

variable (h : s.ReadBack s') (scalars : ∀ n ∈ BuiltIn.scalarNames, n ∈ s.types.keys)
  (introspection : ∀ n ∈ s.introspection, n ∈ BuiltIn.introspectionNames)

include h scalars introspection

theorem ReadBack.carries : s.Carries s' where
  roots := by
    intro k
    rw [h.definition.root_eq (List.Subset.refl _), Option.map_map]
    rfl
  introspection := fun n hn => h.introspection n (introspection n hn)
  type := by
    intro n t defined
    obtain ⟨u, defined', one⟩ := h.type?_eq_some defined
    by_cases spare : s.Spare t
    · obtain ⟨scalar, unreferred⟩ := spare
      rw [show t.name = n from (Table.get?_eq_some_iff.mp defined).2] at unreferred
      exact Or.inl ⟨scalar, unreferred⟩
    · exact Or.inr ⟨u, defined', one.alike spare⟩
  scalar := by
    intro n language absent
    obtain ⟨t, ht, rfl⟩ := Table.mem_keys_iff.mp (scalars n language)
    rw [show s.type? (key t) = some t from Table.get?_key ht] at absent
    cases absent
  types := by
    intro u hu
    obtain ⟨t, ht, one⟩ := exists_of_mem_forall₂ h.types hu
    have defined : s.type? u.name = some t := Table.get?_eq_some_iff.mpr ⟨ht, one.name.symm⟩
    have defined' : s'.type? u.name = some u := Table.get?_key hu
    cases one with
    | regrouped kept parts =>
        exact Or.inl ⟨t, defined, parts.alike (Origin.numbers_renumber _) (List.Subset.refl _)⟩
    | renewed _ language plain =>
        have free : ∀ n ∈ BuiltIn.scalarNames, n.isReserved = false := by decide
        subst plain
        exact Or.inr (modest_of_scalar rfl rfl (free _ language) defined')
  directive := by
    intro n d defined
    rw [directive?, h.directives]
    exact defined
  directives := fun d hd => Or.inl (h.directives ▸ hd)

/-- **What is read back is valid** if the schema is. -/
theorem ReadBack.isValid
    (valid : s.isValid = true) :
    s'.isValid = true := by
  have carries := h.carries scalars introspection
  have unseen : s.LeavesOpen s' := fun n _ absent => h.type?_eq_none absent
  have known : s.KnowsScalars s' := by
    intro t _ _ a _ mem
    rwa [h.directives] at mem
  refine (carries.isValid_iff valid).mpr ?_
  simp only [Schema.isValid, Bool.and_eq_true] at valid
  obtain ⟨⟨-, finite⟩, fit⟩ := valid
  have finite' : s'.directivesFinite = true := by
    refine List.all_eq_true.mpr fun n hn => ?_
    rw [h.directives] at hn
    exact carries.directiveLeadsOn unseen known fit hn (List.all_eq_true.mp finite n hn)
  have applied : s'.applicationsFit .schema s'.definition.applications = true := by
    have all := fit
    simp only [Schema.allApplicationsFit, Bool.and_eq_true] at all
    rw [applicationsFit_perm
      (h.definition.applications_perm (Origin.numbers_renumber _) (List.Subset.refl _))]
    exact carries.applicationsFit unseen all.1.1
  exact ⟨finite', carries.allApplicationsFit unseen fit applied⟩

end Carrying

end Schema
end Supergraph
