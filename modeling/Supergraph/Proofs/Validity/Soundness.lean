import Supergraph.Proofs.Validity.Specification

/-!
# What the checks of the library tell

The library follows references up to a limit and looks for the definition that it began with.
A schema that passes has no cycle in the sense of the specification: each of the objects on a
cycle of input objects would hold another one at every level (`not_holds_of_inputObjectsFinite`),
and a directive that leads back to itself does so on a way that passes nothing twice, which the
search follows to its end (`not_mentions_of_directivesFinite`).

So a schema that passes is lawful if all of its applications are right, which the library does
not ask of those on the scalars of the language (`lawful_of_isValid`).
-/

namespace Supergraph

section Ways

variable {α : Type} {r : α → α → Prop} {goal : α}

/-- A way to the goal, given by what is passed before it. -/
inductive Leads (r : α → α → Prop) (goal : α) : List α → Prop
  | one
      {a : α}
      (step : r a goal) :
      Leads r goal [a]
  | more
      {a b : α}
      {way : List α}
      (step : r a b)
      (further : Leads r goal (b :: way)) :
      Leads r goal (a :: b :: way)

/-- From anything that is passed the rest of the way leads on. -/
theorem Leads.suffix
    {front way : List α}
    {a : α}
    (h : Leads r goal (front ++ a :: way)) :
    Leads r goal (a :: way) := by
  induction front with
  | nil => exact h
  | cons b front ih =>
      cases front with
      | nil =>
          cases h with
          | more _ further => exact further
      | cons c front =>
          cases h with
          | more _ further => exact ih further

/-- There is a way that passes nothing twice. -/
theorem exists_leads
    {a : α}
    (h : Relation.TransGen r a goal) :
    ∃ way, Leads r goal (a :: way) ∧ (a :: way).Nodup := by
  induction h using Relation.TransGen.head_induction_on with
  | single step => exact ⟨[], .one step, List.nodup_singleton _⟩
  | @head a b step _ ih =>
      obtain ⟨way, leads, distinct⟩ := ih
      by_cases again : a ∈ b :: way
      · obtain ⟨front, rest, split⟩ := List.append_of_mem again
        rw [split] at leads distinct
        exact ⟨rest, leads.suffix, (List.nodup_append.mp distinct).2.1⟩
      · exact ⟨b :: way, .more step leads, List.nodup_cons.mpr ⟨again, distinct⟩⟩

end Ways

namespace Schema

variable {s : Schema}

section InputObjects

theorem mem_heldBy_of_holds
    {n m k : Name}
    (holds : s.Holds n m)
    (further : s.Holds m k) :
    m ∈ s.heldBy n := by
  obtain ⟨t, defined, v, hv, type⟩ := holds
  obtain ⟨u, known, x, hx, -⟩ := further
  have input : s.isInputObject m = true := by
    simp [isInputObject, known, kind_of_mem_inputFields hx]
  simp only [heldBy, defined]
  refine List.mem_filter.mpr ⟨List.mem_filterMap.mpr ⟨v, hv, ?_⟩, input⟩
  simp only [alwaysHolds, type]

/-- However far one follows a cycle, there is something left. -/
theorem heldAt_ne_nil
    {levels : Nat}
    {ns : List Name}
    {n : Name}
    (hn : n ∈ ns)
    (cycle : Relation.TransGen s.Holds n n) :
    s.heldAt levels ns ≠ [] := by
  induction levels generalizing ns n with
  | zero => exact List.ne_nil_of_mem hn
  | succ levels ih =>
      obtain ⟨m, first, rest⟩ := Relation.TransGen.head'_iff.mp cycle
      have again : Relation.TransGen s.Holds m m := Relation.TransGen.tail' rest first
      obtain ⟨k, further, -⟩ := Relation.TransGen.head'_iff.mp again
      refine ih (List.mem_eraseDups.mpr (List.mem_flatMap.mpr ⟨n, hn, ?_⟩)) again
      exact mem_heldBy_of_holds first further

/-- No input object has to hold one of its own type if the check of the library passes. -/
theorem not_holds_of_inputObjectsFinite
    (finite : s.inputObjectsFinite = true)
    (n : Name) :
    ¬ Relation.TransGen s.Holds n n := by
  intro cycle
  obtain ⟨m, ⟨t, defined, v, hv, -⟩, -⟩ := Relation.TransGen.head'_iff.mp cycle
  have input : s.isInputObject n = true := by
    simp [isInputObject, defined, kind_of_mem_inputFields hv]
  refine heldAt_ne_nil ?_ cycle (List.isEmpty_iff.mp finite)
  exact List.mem_filter.mpr ⟨Table.mem_keys_of_get? defined, input⟩

end InputObjects

section Directives

/-- What the library follows. -/
def Follows (s : Schema) (r r' : Referent) : Prop :=
  r' ∈ s.referents r

/-- The search does not pass over a way back to where it began. -/
theorem leadsOn_eq_false
    {start r : Referent}
    {steps : Nat}
    {passed way : List Referent}
    (began : start ∈ passed)
    (leads : Leads s.Follows start (r :: way))
    (distinct : (r :: way).Nodup)
    (new : ∀ x ∈ r :: way, x ∉ passed) :
    s.leadsOn start steps passed r = false := by
  cases steps with
  | zero => rfl
  | succ steps =>
      have unseen : ¬ passed.contains r = true := by
        simpa using new r List.mem_cons_self
      -- One of the definitions that are followed from here is the next on the way.
      have next : ∃ x ∈ s.referents r, s.leadsOn start steps (r :: passed) x = false := by
        cases leads with
        | one step =>
            refine ⟨start, step, ?_⟩
            cases steps with
            | zero => rfl
            | succ steps =>
                unfold leadsOn
                rw [if_pos (by simpa using Or.inr began)]
                simp
        | @more _ b way step further =>
            obtain ⟨fresh, distinct⟩ := List.nodup_cons.mp distinct
            refine ⟨b, step, leadsOn_eq_false (List.mem_cons_of_mem _ began) further distinct ?_⟩
            intro x hx again
            rcases List.mem_cons.mp again with rfl | again
            · exact fresh hx
            · exact new x (List.mem_cons_of_mem _ hx) again
      unfold leadsOn
      rw [if_neg unseen]
      have all : (s.referents r).all (s.leadsOn start steps (r :: passed)) = false := by
        simpa [List.all_eq_false] using next
      simp only [all, Bool.and_false]

section Passing

/-- Whatever the library follows from the second definition on, it follows from the first: it
passes through built-in types. -/
def Passes (s : Schema) (a : Referent) : Referent → Prop
  | .directive n => s.Follows a (.directive n)
  | .type n => s.typeReferents n ⊆ s.referents a

variable {a x z : Referent}

theorem exists_directive_of_applied
    {ds : List Directive}
    (applied : z ∈ applicationMentions ds)
    (known : ∀ n, z = .directive n → s.directives.contains n = true) :
    ∃ n, z = .directive n ∧ z ∈ s.directiveReferents ds := by
  obtain ⟨d, hd, rfl⟩ := mem_applicationMentions_iff.mp applied
  exact ⟨d.name, rfl, List.mem_map.mpr ⟨d, List.mem_filter.mpr ⟨hd, known _ rfl⟩, rfl⟩⟩

theorem passes_of_inputMentions
    {vs : List InputValue}
    (followed : s.inputReferents vs ⊆ s.referents a)
    (known : ∀ n, z = .directive n → s.directives.contains n = true)
    (mentioned : z ∈ inputMentions vs) :
    s.Passes a z := by
  obtain ⟨v, hv, rfl | applied⟩ := mem_inputMentions_iff.mp mentioned
  · exact fun r hr => followed
      (List.mem_flatMap.mpr ⟨v, hv, List.mem_append_right _ hr⟩)
  · obtain ⟨n, rfl, mem⟩ := exists_directive_of_applied applied known
    exact followed (List.mem_flatMap.mpr ⟨v, hv, List.mem_append_left _ mem⟩)

theorem passes_of_typeMentions
    {t : TypeDef}
    (followed : s.appliedReferents t ⊆ s.referents a)
    (inputs : s.inputReferents t.body.inputFields ⊆ s.referents a)
    (known : ∀ n, z = .directive n → s.directives.contains n = true)
    (mentioned : z ∈ typeMentions t) :
    s.Passes a z := by
  have applied : ∀ ds ⊆ t.applications ++ t.body.values.flatMap EnumValue.directives,
      z ∈ applicationMentions ds → s.Passes a z := by
    intro ds fewer applied
    obtain ⟨n, rfl, mem⟩ := exists_directive_of_applied applied known
    obtain ⟨d, hd, named⟩ := List.mem_map.mp mem
    obtain ⟨hd, defined⟩ := List.mem_filter.mp hd
    exact followed (List.mem_map.mpr ⟨d, List.mem_filter.mpr ⟨fewer hd, defined⟩, named⟩)
  rcases mem_typeMentions_iff.mp mentioned with whole | ⟨v, hv, onValue⟩ | input
  · exact applied _ (List.subset_append_left _ _) whole
  · refine applied v.directives (fun d hd => ?_) onValue
    exact List.mem_append_right _ (List.mem_flatMap.mpr ⟨v, hv, hd⟩)
  · exact passes_of_inputMentions inputs known input

theorem passes_of_directive
    {n : Name}
    (known : ∀ n, z = .directive n → s.directives.contains n = true)
    (mentions : s.Mentions (.directive n) z) :
    s.Passes (.directive n) z := by
  cases mentions with
  | directive defined mentioned =>
      refine passes_of_inputMentions ?_ known mentioned
      simp only [referents, defined]
      exact List.Subset.refl _

theorem typeReferents_eq
    {n : Name}
    {t : TypeDef}
    (defined : s.type? n = some t) :
    s.typeReferents n = if t.builtIn then s.appliedReferents t else [.type n] := by
  simp only [typeReferents, defined]

/-- What a definition mentions is followed from it or, past a built-in type, from before. -/
theorem passes_of_mentions
    (plain : ∀ t ∈ s.types.items, t.builtIn = true → t.body.inputFields = [])
    (known : ∀ n, z = .directive n → s.directives.contains n = true)
    (mentions : s.Mentions x z)
    (passes : s.Passes a x) :
    s.Passes a z ∨ s.Follows a x ∧ s.Passes x z := by
  cases x with
  | directive n => exact Or.inr ⟨passes, passes_of_directive known mentions⟩
  | type n =>
      cases mentions with
      | @type _ t _ defined mentioned =>
          rw [Passes, typeReferents_eq defined] at passes
          cases builtIn : t.builtIn with
          | true =>
              rw [builtIn, if_pos rfl] at passes
              have inputs := plain t (Table.get?_eq_some_iff.mp defined).1 builtIn
              refine Or.inl (passes_of_typeMentions passes ?_ known mentioned)
              rw [inputs]
              exact List.nil_subset _
          | false =>
              rw [builtIn, if_neg (by decide)] at passes
              refine Or.inr ⟨passes List.mem_cons_self,
                passes_of_typeMentions ?_ ?_ known mentioned⟩
              · simp only [referents, defined]
                exact List.subset_append_left _ _
              · simp only [referents, defined]
                exact List.subset_append_right _ _

theorem contains_of_mentions
    (mentions : s.Mentions x z)
    (n : Name)
    (directive : x = .directive n) :
    s.directives.contains n = true := by
  subst directive
  cases mentions with
  | directive defined _ => exact (Table.contains_iff _ _).mpr (Table.mem_keys_of_get? defined)

/-- A cycle by what definitions mention is one by what the library follows. -/
theorem transGen_follows
    (plain : ∀ t ∈ s.types.items, t.builtIn = true → t.body.inputFields = [])
    {n : Name}
    (cycle : Relation.TransGen s.Mentions (.directive n) (.directive n)) :
    Relation.TransGen s.Follows (.directive n) (.directive n) := by
  obtain ⟨z, first, rest⟩ := Relation.TransGen.head'_iff.mp cycle
  have known : ∀ m, Referent.directive n = .directive m → s.directives.contains m = true :=
    contains_of_mentions first
  have goes : ∀ {x}, Relation.TransGen s.Mentions x (.directive n) → ∀ a, s.Passes a x →
      Relation.TransGen s.Follows a (.directive n) := by
    intro x chain
    induction chain using Relation.TransGen.head_induction_on with
    | single step =>
        intro a passes
        rcases passes_of_mentions plain known step passes with now | ⟨before, next⟩
        · exact .single now
        · exact .tail (.single before) next
    | head step chain ih =>
        intro a passes
        obtain ⟨c, further, -⟩ := Relation.TransGen.head'_iff.mp chain
        rcases passes_of_mentions plain (contains_of_mentions further) step passes with
          now | ⟨before, next⟩
        · exact ih a now
        · exact .head before (ih _ next)
  rcases Relation.reflTransGen_iff_eq_or_transGen.mp rest with rfl | chain
  · exact .single (passes_of_directive known first)
  · obtain ⟨c, further, -⟩ := Relation.TransGen.head'_iff.mp chain
    exact goes chain _ (passes_of_directive (contains_of_mentions further) first)

end Passing

/-- No directive definition leads back to itself if the check of the library passes. -/
theorem not_mentions_of_directivesFinite
    (plain : ∀ t ∈ s.types.items, t.builtIn = true → t.body.inputFields = [])
    (finite : s.directivesFinite = true)
    (n : Name) :
    ¬ Relation.TransGen s.Mentions (.directive n) (.directive n) := by
  intro cycle
  obtain ⟨z, first, -⟩ := Relation.TransGen.head'_iff.mp cycle
  obtain ⟨way, leads, distinct⟩ := exists_leads (transGen_follows plain cycle)
  have known : n ∈ s.directives.keys :=
    (Table.contains_iff _ _).mp (contains_of_mentions first n rfl)
  have all := List.all_eq_true.mp (List.all_eq_true.mp finite n known)
  cases leads with
  | one step =>
      have ends := all _ step
      unfold leadsOn at ends
      simp [maxChain] at ends
  | more step further =>
      have ends := all _ step
      obtain ⟨fresh, distinct⟩ := List.nodup_cons.mp distinct
      rw [leadsOn_eq_false List.mem_cons_self further distinct] at ends
      · cases ends
      · intro x hx again
        exact fresh (List.mem_singleton.mp again ▸ hx)

end Directives

/-- **A schema that passes the checks of the library is lawful**, if all of its applications are
right, and if built-in types hold no input fields and a type under the name of a scalar of the
language is a scalar, as in every text. -/
theorem lawful_of_isValid
    (valid : s.isValid = true)
    (plain : ∀ t ∈ s.types.items, t.builtIn = true → t.body.inputFields = [])
    (scalars : ∀ n ∈ BuiltIn.scalarNames, ∀ t, s.type? n = some t → t.kind = .scalar)
    (right : ∀ p ∈ s.places, s.Right p) :
    s.Lawful := by
  simp only [isValid, Bool.and_eq_true] at valid
  obtain ⟨⟨⟨⟨⟨⟨⟨roots, names⟩, argumentNames⟩, parts⟩, interfaces⟩, inputs⟩, finite⟩, -⟩ := valid
  exact
    { roots, names, argumentNames, parts, interfaces, scalars
      inputObjects := not_holds_of_inputObjectsFinite inputs
      directives := not_mentions_of_directivesFinite plain finite
      applications := right }

end Schema
end Supergraph
