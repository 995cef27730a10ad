import Supergraph.Proofs.Validity.Carried

/-!
# Chains of directives in larger schemas

Whether a directive definition leads back to itself is decided by the definitions that it
leads to.  In a schema that carries a valid one (`Schema.Carries`), the directives of the
latter lead no further than they did, unless a scalar that was missing has become a type, or
a directive that was applied to a scalar of the language without a definition has become a
directive; this is the one place where nobody asks for a definition.  So they do not come
back to themselves, and no way from them gets too long (`Carries.directiveLeadsOn`).
-/

namespace Supergraph
namespace Schema

section Chains

variable {s s' : Schema} {l : Location} {ds ds' : List Directive} {r : Referent}

/-- The directives of these applications that the second schema has are in the first. -/
def Knows (s s' : Schema) (ds : List Directive) : Prop :=
  ∀ a ∈ ds, a.name ∈ s'.directives.keys → a.name ∈ s.directives.keys

/-- What is applied to scalars of the language is not looked at by the rules. -/
def KnowsScalars (s s' : Schema) : Prop :=
  ∀ t ∈ s.types.items, t.isBuiltInScalar = true → s.Knows s' t.applications

/-- The referent is there, and a type if anything refers to it. -/
def IsReferred (s : Schema) : Referent → Prop
  | .directive n => n ∈ s.directives.keys
  | .type n => n ∈ s.referredTypes ∧ n ∈ s.types.keys

theorem append_subset_append
    {α : Type}
    {as bs cs ds : List α}
    (first : as ⊆ bs)
    (second : cs ⊆ ds) :
    as ++ cs ⊆ bs ++ ds :=
  List.append_subset.mpr
    ⟨List.Subset.trans first (List.subset_append_left _ _),
      List.Subset.trans second (List.subset_append_right _ _)⟩

theorem mem_directives_of_applicationsFit
    (fit : s.applicationsFit l ds = true)
    {a : Directive}
    (ha : a ∈ ds) :
    a.name ∈ s.directives.keys := by
  simp only [applicationsFit, Bool.and_eq_true, List.all_eq_true] at fit
  have fits := fit.1 a ha
  unfold applicationFits at fits
  split at fits
  · cases fits
  · rename_i d defined
    exact Table.mem_keys_of_get? defined

theorem knows_of_applicationsFit
    (fit : s.applicationsFit l ds = true) :
    s.Knows s' ds :=
  fun _ ha _ => mem_directives_of_applicationsFit fit ha

theorem knows_append
    (first : s.Knows s' ds)
    (second : s.Knows s' ds') :
    s.Knows s' (ds ++ ds') := by
  intro a ha
  rcases List.mem_append.mp ha with ha | ha
  · exact first a ha
  · exact second a ha

theorem isReferred_of_mem_directiveReferents
    (mem : r ∈ s.directiveReferents ds) :
    s.IsReferred r := by
  obtain ⟨a, ha, rfl⟩ := List.mem_map.mp mem
  exact (Table.contains_iff _ _).mp (List.mem_filter.mp ha).2

theorem directiveReferents_subset
    (fewer : ds' ⊆ ds)
    (known : s.Knows s' ds) :
    s'.directiveReferents ds' ⊆ s.directiveReferents ds := by
  intro r hr
  obtain ⟨a, ha, rfl⟩ := List.mem_map.mp hr
  obtain ⟨ha, contained⟩ := List.mem_filter.mp ha
  have defined := known a (fewer ha) ((Table.contains_iff _ _).mp contained)
  exact List.mem_map.mpr
    ⟨a, List.mem_filter.mpr ⟨fewer ha, (Table.contains_iff _ _).mpr defined⟩, rfl⟩

theorem isReferred_of_mem_inputReferents
    {vs : List InputValue}
    (referred : ∀ v ∈ vs, v.type.innermost ∈ s.referredTypes)
    (mem : r ∈ s.inputReferents vs) :
    s.IsReferred r := by
  obtain ⟨v, hv, mem⟩ := List.mem_flatMap.mp mem
  rcases List.mem_append.mp mem with mem | mem
  · exact isReferred_of_mem_directiveReferents mem
  · unfold typeReferents at mem
    split at mem
    · rename_i t defined
      split at mem
      · exact isReferred_of_mem_directiveReferents mem
      · rw [List.mem_singleton.mp mem]
        exact ⟨referred v hv, Table.mem_keys_of_get? defined⟩
    · cases mem

theorem isReferred_of_mem_referents
    {r' : Referent}
    (mem : r' ∈ s.referents r) :
    s.IsReferred r' := by
  unfold referents at mem
  split at mem
  · split at mem
    · rename_i d defined
      exact isReferred_of_mem_inputReferents
        (fun a ha => mem_referredTypes_of_directive (Table.get?_eq_some_iff.mp defined).1 ha) mem
    · cases mem
  · split at mem
    · rename_i t defined
      rcases List.mem_append.mp mem with mem | mem
      · exact isReferred_of_mem_directiveReferents mem
      · exact isReferred_of_mem_inputReferents
          (fun a ha => mem_referredTypes_of_inputField (Table.get?_eq_some_iff.mp defined).1 ha) mem
    · cases mem

namespace Carries

theorem appliedReferents_subset
    (scalars : s.KnowsScalars s')
    (fit : s.allApplicationsFit = true)
    {t u : TypeDef}
    (ht : t ∈ s.types.items)
    (alike : t.Alike u) :
    s'.appliedReferents u ⊆ s.appliedReferents t := by
  have values : u.body.values.flatMap EnumValue.directives ⊆
      t.body.values.flatMap EnumValue.directives := (alike.values.flatMap_right _).subset
  refine directiveReferents_subset
    (append_subset_append alike.applications.subset values) ?_
  simp only [Schema.allApplicationsFit, Bool.and_eq_true, List.all_eq_true] at fit
  have fits := fit.2 t ht
  simp only [Schema.typeApplicationsFit, Bool.or_eq_true, Bool.and_eq_true,
    List.all_eq_true] at fits
  rcases fits with scalar | ⟨⟨⟨whole, -⟩, onValues⟩, -⟩
  · have none : t.body.values = [] := by
      rw [TypeDef.body_of_isBuiltInScalar scalar]
      rfl
    rw [none, List.flatMap_nil, List.append_nil]
    exact scalars t ht scalar
  · refine knows_append (knows_of_applicationsFit whole) fun a ha => ?_
    obtain ⟨v, hv, ha⟩ := List.mem_flatMap.mp ha
    exact knows_of_applicationsFit (onValues v hv) a ha

variable (h : s.Carries s') (unseen : s.LeavesOpen s') (scalars : s.KnowsScalars s')
  (fit : s.allApplicationsFit = true)

include h unseen scalars fit

theorem typeReferents_subset
    {n : Name}
    (referred : n ∈ s.referredTypes) :
    s'.typeReferents n ⊆ s.typeReferents n := by
  rcases h.type?_of_leavesOpen unseen referred with
    ⟨absent, absent'⟩ | ⟨t, u, defined, defined', alike⟩
  · simp [typeReferents, absent, absent']
  · have applied :=
      appliedReferents_subset scalars fit (Table.get?_eq_some_iff.mp defined).1 alike
    simp only [typeReferents, defined, defined', alike.builtIn]
    split
    · exact applied
    · exact List.Subset.refl _

theorem inputReferents_subset
    {vs ws : List InputValue}
    (fewer : ws ⊆ vs)
    (referred : ∀ v ∈ vs, v.type.innermost ∈ s.referredTypes)
    (known : ∀ v ∈ vs, s.Knows s' v.directives) :
    s'.inputReferents ws ⊆ s.inputReferents vs := by
  intro r hr
  obtain ⟨v, hv, hr⟩ := List.mem_flatMap.mp hr
  refine List.mem_flatMap.mpr ⟨v, fewer hv, ?_⟩
  exact append_subset_append
    (directiveReferents_subset (List.Subset.refl _) (known v (fewer hv)))
    (h.typeReferents_subset unseen scalars fit (referred v (fewer hv))) hr

/-- What is in the first schema leads no further in the second. -/
theorem referents_subset
    (known : s.IsReferred r) :
    s'.referents r ⊆ s.referents r := by
  have all := fit
  simp only [Schema.allApplicationsFit, Bool.and_eq_true, List.all_eq_true] at all
  cases r with
  | directive n =>
      obtain ⟨d, hd, rfl⟩ := Table.mem_keys_iff.mp known
      have defined : s.directive? d.name = some d := Table.get?_key hd
      have defined' := h.directive _ d defined
      simp only [referents, key_directiveDef, defined, defined']
      exact h.inputReferents_subset unseen scalars fit (List.Subset.refl _)
        (fun a ha => mem_referredTypes_of_directive hd ha)
        (fun a ha => knows_of_applicationsFit (List.all_eq_true.mp (all.1.2 d hd) a ha))
  | type n =>
      obtain ⟨referred, present⟩ := known
      obtain ⟨t, ht, named⟩ := Table.mem_keys_iff.mp present
      obtain rfl : t.name = n := named
      have defined : s.type? t.name = some t := Table.get?_key ht
      obtain ⟨u, defined', alike⟩ := h.type?_of_referred referred defined
      simp only [referents, defined, defined']
      refine append_subset_append (appliedReferents_subset scalars fit ht alike) ?_
      refine h.inputReferents_subset unseen scalars fit alike.inputFields.subset
        (fun a ha => mem_referredTypes_of_inputField ht ha) fun a ha => ?_
      have fits := all.2 t ht
      simp only [Schema.typeApplicationsFit, Bool.or_eq_true, Bool.and_eq_true,
        List.all_eq_true] at fits
      rcases fits with scalar | ⟨-, inputs⟩
      · rw [TypeDef.body_of_isBuiltInScalar scalar] at ha
        cases ha
      · exact knows_of_applicationsFit (inputs a ha)

theorem leadsOn
    (start : Referent)
    (steps : Nat)
    (passed : List Referent)
    (known : s.IsReferred r)
    (leads : s.leadsOn start steps passed r = true) :
    s'.leadsOn start steps passed r = true := by
  induction steps generalizing passed r with
  | zero => cases leads
  | succ steps ih =>
      unfold Schema.leadsOn at leads ⊢
      split
      · rename_i again
        rwa [if_pos again] at leads
      · rename_i new
        rw [if_neg new] at leads
        simp only [Bool.and_eq_true, List.all_eq_true] at leads ⊢
        refine ⟨leads.1, fun r' hr' => ?_⟩
        have fewer := h.referents_subset unseen scalars fit known hr'
        exact ih _ (isReferred_of_mem_referents fewer) (leads.2 r' fewer)

/-- No way from a directive of the first schema leads back to it or gets too long in the
second, if none did in the first. -/
theorem directiveLeadsOn
    {n : Name}
    (known : n ∈ s.directives.keys)
    (leads : s.directiveLeadsOn n = true) :
    s'.directiveLeadsOn n = true := by
  simp only [Schema.directiveLeadsOn, List.all_eq_true] at leads ⊢
  intro r hr
  have fewer := h.referents_subset unseen scalars fit (r := .directive n) known hr
  exact h.leadsOn unseen scalars fit _ _ _ (isReferred_of_mem_referents fewer) (leads r fewer)

end Carries

end Chains

section Ends

variable {s : Schema}

/-- Every way from here on comes to an end after so many types at the most, and comes upon
no directive. -/
def EndsWithin (s : Schema) : Nat → Referent → Prop
  | 0, _ => False
  | levels + 1, r => r.isDirective = false ∧ ∀ r' ∈ s.referents r, s.EndsWithin levels r'

/-- A way that ends soon does not lead back to a directive. -/
theorem leadsOn_of_endsWithin
    {start : Referent}
    (directive : start.isDirective = true)
    {levels steps : Nat}
    (enough : levels ≤ steps)
    {passed : List Referent}
    (directives : passed.countP Referent.isDirective ≤ maxChain)
    (types : passed.countP (fun r => !r.isDirective) + levels ≤ maxChain)
    {r : Referent}
    (ends : s.EndsWithin levels r) :
    s.leadsOn start steps passed r = true := by
  induction levels generalizing steps passed r with
  | zero => cases ends
  | succ levels ih =>
      obtain ⟨type, further⟩ := ends
      obtain ⟨steps, rfl⟩ : ∃ n, steps = n + 1 := ⟨steps - 1, by omega⟩
      have other : r ≠ start := by
        rintro rfl
        rw [type] at directive
        cases directive
      have directives' : (r :: passed).countP Referent.isDirective ≤ maxChain := by
        rw [List.countP_cons, if_neg (by simp [type])]
        exact directives
      have types' : (r :: passed).countP (fun r => !r.isDirective) + levels ≤ maxChain := by
        rw [List.countP_cons, if_pos (by simp [type])]
        omega
      unfold leadsOn
      split
      · simpa using other
      · simp only [Bool.and_eq_true, List.all_eq_true, isShortChain, decide_eq_true_eq]
        refine ⟨⟨directives', by omega⟩, fun r' hr' => ?_⟩
        exact ih (by omega) directives' types' (further r' hr')

theorem directiveLeadsOn_of_endsWithin
    {n : Name}
    {levels : Nat}
    (few : levels ≤ maxChain)
    (ends : ∀ r ∈ s.referents (.directive n), s.EndsWithin levels r) :
    s.directiveLeadsOn n = true := by
  refine List.all_eq_true.mpr fun r hr => leadsOn_of_endsWithin rfl (by omega) ?_ ?_ (ends r hr)
  · exact Nat.succ_le_succ (Nat.zero_le _)
  · simpa [Referent.isDirective] using few

end Ends

end Schema
end Supergraph
