import Supergraph.Proofs.Validity.Place

/-!
# Valid schemas and further applications

Of the rules for valid schemas, two look at applications.  Whether a directive definition
leads back to itself is decided among directives and the types of arguments; where
something comes out of a schema, nothing that is applied matters
(`directivesFinite_of_gains`).  The other rule is that all applications are right.  A schema
with one more application in such a place is therefore valid exactly if it was before and
the application is right there (`isValid_of_gains`).
-/

namespace Supergraph
namespace Schema

section Rules

variable (s : Schema)

/-- The rules for one place hold of a new application. -/
def admits (p : Place) (d : Directive) : Bool :=
  s.applicationFits p.location d && (s.isRepeatable d.name || p.count d.name == 0)

theorem repeatsAllowed_append
    (ds : List Directive)
    (d : Directive) :
    s.repeatsAllowed (ds ++ [d]) =
      (s.repeatsAllowed ds &&
        (s.isRepeatable d.name || ds.countP (fun a => a.name == d.name) == 0)) := by
  have appended : ∀ n, (ds ++ [d]).countP (fun a => a.name == n) =
      ds.countP (fun a => a.name == n) + if d.name = n then 1 else 0 := by
    intro n
    simp [List.countP_cons]
  have occurs : ∀ a ∈ ds, 0 < ds.countP (fun b => b.name == a.name) := fun a ha =>
    List.countP_pos_iff.mpr ⟨a, ha, beq_self_eq_true a.name⟩
  rw [Bool.eq_iff_iff]
  simp only [repeatsAllowed, List.all_eq_true, List.forall_mem_append,
    List.forall_mem_singleton, Bool.and_eq_true, Bool.or_eq_true, beq_iff_eq, appended, if_true]
  constructor
  · rintro ⟨before, last⟩
    refine ⟨fun a ha => (before a ha).imp_right fun once => ?_, last.imp_right fun once => by omega⟩
    have := occurs a ha
    omega
  · rintro ⟨before, last⟩
    refine ⟨fun a ha => ?_, last.imp_right fun fresh => by omega⟩
    by_cases same : d.name = a.name
    · rw [same] at last
      refine last.imp_right fun fresh => ?_
      have := occurs a ha
      omega
    · simpa only [same, if_false, Nat.add_zero] using before a ha

theorem applicationsFit_append
    (p : Place)
    (d : Directive) :
    s.applicationsFit p.location (p.applications ++ [d]) =
      (s.applicationsFit p.location p.applications && s.admits p d) := by
  simp only [applicationsFit, repeatsAllowed_append, admits, Place.count, List.all_append,
    List.all_cons, List.all_nil, Bool.and_true]
  cases s.repeatsAllowed p.applications <;>
    cases p.applications.all (s.applicationFits p.location) <;> simp

variable {s} {s' : Schema} {d : Directive} {x : Site} {p : Place}

theorem typeApplicationsFit_congr
    (same : s'.applicationsFit = s.applicationsFit) :
    s'.typeApplicationsFit = s.typeApplicationsFit := by
  funext t
  simp only [typeApplicationsFit, argumentApplicationsFit, same]

theorem typeApplicationsFit_attach
    {t : TypeDef}
    (object : t.kind = .object) :
    s.typeApplicationsFit (t.attach d) =
      (s.typeApplicationsFit t && s.admits ⟨t.kind.location, t.applications⟩ d) := by
  have whole := s.applicationsFit_append ⟨t.kind.location, t.applications⟩ d
  have builtIn : ∀ u : TypeDef, u.kind = .object → u.isBuiltInScalar = false := by
    intro u hu
    simp [TypeDef.isBuiltInScalar, hu]
  simp only [typeApplicationsFit, builtIn _ object, builtIn (t.attach d) object, Bool.false_or,
    TypeDef.kind_attach, TypeDef.body_attach, TypeDef.applications_attach, whole]
  ac_rfl

theorem typeApplicationsFit_withBody
    {t : TypeDef}
    {make : Table (Sourced Field) → TypeBody}
    {fs : Table (Sourced Field)}
    {f : Sourced Field}
    (composite : TypeBody.Composite make)
    (body : t.body = make fs)
    (found : fs.get? (key f) = some f) :
    s.typeApplicationsFit (t.withBody (make (fs.put (f.map (Field.attach d))))) =
      (s.typeApplicationsFit t && s.admits ⟨.fieldDefinition, f.item.directives⟩ d) := by
  have builtIn : ∀ (u : TypeDef) gs, u.body = make gs → u.isBuiltInScalar = false := by
    intro u gs hu
    cases composite <;> simp [TypeDef.isBuiltInScalar, TypeDef.kind, hu, TypeBody.kind]
  have kind : (make (fs.put (f.map (Field.attach d)))).kind = t.kind := by
    rw [TypeDef.kind, body]
    exact composite.kind_eq _
  have fields : (fs.put (f.map (Field.attach d))).items.all (fun g =>
        s.applicationsFit .fieldDefinition g.item.directives
          && s.argumentApplicationsFit g.item.arguments) =
      (fs.items.all (fun g => s.applicationsFit .fieldDefinition g.item.directives
          && s.argumentApplicationsFit g.item.arguments)
        && s.admits ⟨.fieldDefinition, f.item.directives⟩ d) := by
    refine Table.all_put (y := f) found ?_
    have appended := s.applicationsFit_append ⟨.fieldDefinition, f.item.directives⟩ d
    dsimp only [Sourced.map, Field.attach] at appended ⊢
    rw [appended, Bool.and_right_comm]
  simp only [typeApplicationsFit, builtIn _ _ body, builtIn (t.withBody _) _ rfl, Bool.false_or,
    TypeDef.kind_withBody, TypeDef.body_withBody, TypeDef.applications_withBody, kind, body,
    composite.fields_eq, composite.values_eq, composite.inputFields_eq, List.all_map, Function.comp_def, fields]
  ac_rfl

/-- All applications are right after one more if they were before and the new one is. -/
theorem allApplicationsFit_of_gains
    (h : s.Gains d x p s')
    (same : s'.applicationsFit = s.applicationsFit) :
    s'.allApplicationsFit = (s.allApplicationsFit && s.admits p d) := by
  have types := typeApplicationsFit_congr same
  have directives : s'.directives.items.all (fun d => s'.argumentApplicationsFit d.arguments) =
      s.directives.items.all (fun d => s.argumentApplicationsFit d.arguments) := by
    simp only [argumentApplicationsFit, same, h.directives_eq]
  simp only [allApplicationsFit, directives, types, same]
  cases h with
  | onSchema =>
      have definition := s.applicationsFit_append ⟨.schema, s.definition.applications⟩ d
      dsimp only at definition
      rw [SchemaDef.applications_attach, definition]
      ac_rfl
  | @onType t defined object =>
      have all := Table.all_put (x := t.attach d) (p := s.typeApplicationsFit) defined
        (typeApplicationsFit_attach object)
      rw [types_withTypes, definition_withTypes, all]
      ac_rfl
  | @onField t make fs f defined composite body found =>
      have all := Table.all_put (x := t.withBody (make (fs.put (f.map (Field.attach d)))))
        (p := s.typeApplicationsFit) defined (typeApplicationsFit_withBody composite body found)
      rw [types_withTypes, definition_withTypes, all]
      ac_rfl

end Rules

section Chains

/-- Arguments may be of this type, if there is such a type. -/
def InputName (s : Schema) (n : Name) : Prop :=
  ∀ t, s.type? n = some t → t.isInput = true

/-- The referent is a directive, or a type that arguments may be of. -/
def InputReferent (s : Schema) : Referent → Prop
  | .directive _ => True
  | .type n => s.InputName n

/-- Two schemas have the same directives, and the same types that arguments may be of. -/
structure AgreeOnInputs (s s' : Schema) : Prop where
  directives : s'.directives = s.directives
  types : ∀ n, s.InputName n → s'.type? n = s.type? n

variable {s s' : Schema}

theorem inputName_of_refersTo
    {r : TypeRef}
    (h : s.refersTo TypeDef.isInput r = true) :
    s.InputName r.innermost := by
  intro t ht
  simpa [refersTo, ht] using h

theorem directiveReferents_congr
    (same : s'.directives = s.directives) :
    s'.directiveReferents = s.directiveReferents := by
  funext ds
  simp only [directiveReferents, same]

theorem inputReferent_of_mem_directiveReferents
    {ds : List Directive}
    {r : Referent}
    (h : r ∈ s.directiveReferents ds) :
    s.InputReferent r := by
  obtain ⟨d, -, rfl⟩ := List.mem_map.mp h
  trivial

theorem inputReferents_congr
    (agree : s.AgreeOnInputs s')
    {vs : List InputValue}
    (valid : s.argumentTypesValid vs = true) :
    s'.inputReferents vs = s.inputReferents vs := by
  refine List.flatMap_congr fun v hv => ?_
  have input := inputName_of_refersTo (List.all_eq_true.mp valid v hv)
  rw [directiveReferents_congr agree.directives, typeReferents, typeReferents,
    agree.types _ input]
  simp only [appliedReferents, directiveReferents_congr agree.directives]

theorem inputReferent_of_mem_inputReferents
    {vs : List InputValue}
    (valid : s.argumentTypesValid vs = true)
    {r : Referent}
    (h : r ∈ s.inputReferents vs) :
    s.InputReferent r := by
  obtain ⟨v, hv, hr⟩ := List.mem_flatMap.mp h
  rcases List.mem_append.mp hr with hr | hr
  · exact inputReferent_of_mem_directiveReferents hr
  · unfold typeReferents at hr
    split at hr
    · split at hr
      · exact inputReferent_of_mem_directiveReferents hr
      · obtain rfl := List.mem_singleton.mp hr
        exact inputName_of_refersTo (List.all_eq_true.mp valid v hv)
    · cases hr

/-- In a schema whose parts are of types that they may be of, definitions that arguments
lead to lead only to such definitions. -/
theorem referents_congr
    (agree : s.AgreeOnInputs s')
    (parts : s.allPartsValid = true)
    {r : Referent}
    (input : s.InputReferent r) :
    s'.referents r = s.referents r ∧ ∀ r' ∈ s.referents r, s.InputReferent r' := by
  obtain ⟨types, directives⟩ := Bool.and_eq_true_iff.mp parts
  cases r with
  | directive n =>
      have same : s'.directive? n = s.directive? n := by
        rw [directive?, directive?, agree.directives]
      cases hd : s.directive? n with
      | none => simp [referents, same, hd]
      | some d =>
          have valid := List.all_eq_true.mp directives d (Table.get?_eq_some_iff.mp hd).1
          simp only [referents, same, hd]
          exact ⟨inputReferents_congr agree valid,
            fun r => inputReferent_of_mem_inputReferents valid⟩
  | type n =>
      have same : s'.type? n = s.type? n := agree.types n input
      cases ht : s.type? n with
      | none => simp [referents, same, ht]
      | some t =>
          have part := List.all_eq_true.mp types t (Table.get?_eq_some_iff.mp ht).1
          have valid : s.argumentTypesValid t.body.inputFields = true := by
            simp only [partTypesValid, Bool.and_eq_true] at part
            exact part.2.1.2
          simp only [referents, same, ht, inputReferents_congr agree valid, appliedReferents,
            directiveReferents_congr agree.directives, true_and]
          intro r hr
          rcases List.mem_append.mp hr with hr | hr
          · exact inputReferent_of_mem_directiveReferents hr
          · exact inputReferent_of_mem_inputReferents valid hr

theorem all_congr_of_mem
    {α : Type}
    {xs : List α}
    {p q : α → Bool}
    (h : ∀ x ∈ xs, p x = q x) :
    xs.all p = xs.all q := by
  rw [Bool.eq_iff_iff, List.all_eq_true, List.all_eq_true]
  exact forall₂_congr fun x hx => by rw [h x hx]

theorem leadsOn_congr
    (agree : s.AgreeOnInputs s')
    (parts : s.allPartsValid = true)
    (start : Referent)
    (steps : Nat)
    (passed : List Referent)
    {r : Referent}
    (input : s.InputReferent r) :
    s'.leadsOn start steps passed r = s.leadsOn start steps passed r := by
  induction steps generalizing passed r with
  | zero => rfl
  | succ steps ih =>
      obtain ⟨same, inputs⟩ := referents_congr agree parts input
      have onward : (s.referents r).all (s'.leadsOn start steps (r :: passed)) =
          (s.referents r).all (s.leadsOn start steps (r :: passed)) :=
        all_congr_of_mem fun r' hr' => ih (r :: passed) (inputs r' hr')
      simp only [leadsOn, same, onward]

/-- Whether directives lead back to themselves is decided among the definitions that
arguments lead to. -/
theorem directivesFinite_congr
    (agree : s.AgreeOnInputs s')
    (parts : s.allPartsValid = true) :
    s'.directivesFinite = s.directivesFinite := by
  have leads : s'.directiveLeadsOn = s.directiveLeadsOn := by
    funext n
    obtain ⟨same, inputs⟩ := referents_congr agree parts (r := .directive n) trivial
    simp only [directiveLeadsOn, same]
    exact all_congr_of_mem fun r hr => leadsOn_congr agree parts _ _ _ (inputs r hr)
  simp only [directivesFinite, agree.directives, leads]

end Chains

section Steps

variable {s s' : Schema} {d : Directive} {x : Site} {p : Place}

theorem Gains.attached
    (h : s.Gains d x p s') :
    s.Attached d s' := by
  cases h with
  | onSchema => exact .onDefinition s .definition
  | @onType t defined object =>
      exact .onType (ChangedAt.of_lookup defined (.onType t .definition) rfl)
  | @onField t make fs f defined composite body found =>
      have changed : ChangedAt (Sourced.Lift (Field.Attached d)) fs.items
          (fs.put (f.map (Field.attach d))).items :=
        ChangedAt.of_lookup found ⟨rfl, .onField f.item⟩ rfl
      have inside : t.body.Attached d (make (fs.put (f.map (Field.attach d)))) := by
        rw [body]
        cases composite with
        | object is => exact .objectField changed
        | interface is => exact .interfaceField changed
      exact .onType (ChangedAt.of_lookup defined (.inside inside) rfl)

/-- The schema without applications is the same. -/
theorem unapplied_eq_of_attached
    (h : s.Attached d s') :
    s'.unapplied = s.unapplied := by
  have hidden : hideAll d.name = true := rfl
  cases h with
  | onDefinition o =>
      refine Schema.ext ?_ rfl rfl rfl
      simp only [unapplied, SchemaDef.elide, Directive.elideSourced_append hidden]
  | @onType types h =>
      have keys : types.keys = s.types.keys :=
        h.map_eq fun _ _ hxy => TypeDef.name_eq_of_attached hxy
      have same : (s.withTypes types).unapplied.types = s.unapplied.types :=
        Table.ext (h.map_eq fun _ _ hxy => TypeDef.elide_eq_of_attached hidden hxy)
      refine Schema.ext rfl rfl same ?_
      rw [introspection_unapplied, introspection_unapplied]
      exact introspection_withTypes fun n hn => keys ▸ hn
  | onDirective h =>
      refine Schema.ext rfl (Table.ext ?_) rfl rfl
      exact h.map_eq fun _ _ hxy => DirectiveDef.elide_eq_of_attached hidden hxy

theorem Gains.agreeOnInputs
    (h : s.Gains d x p s') :
    s.AgreeOnInputs s' where
  directives := h.directives_eq
  types := by
    intro n input
    cases defined : s.type? n with
    | some t => exact h.type?_of_isInput defined (input t defined)
    | none =>
        have same := congrArg (fun s => s.type? n) (unapplied_eq_of_attached h.attached)
        simpa [defined] using same

/-- What does not look at applications does not see the difference. -/
theorem eq_of_unapplied
    {α : Type}
    {read : Schema → α}
    (blind : ∀ s, read s.unapplied = read s)
    (same : s'.unapplied = s.unapplied) :
    read s' = read s := by
  rw [← blind s', same, blind]

/-- **One more application.**  Where something comes out of a valid schema, it stays valid
with one more application exactly if the application is right in its place. -/
theorem isValid_of_gains
    (h : s.Gains d x p s') :
    s'.isValid = (s.isValid && s.admits p d) := by
  have same := unapplied_eq_of_attached h.attached
  have applications := allApplicationsFit_of_gains h (eq_of_unapplied applicationsFit_unapplied same)
  have finite : (s.allPartsValid && s'.directivesFinite) =
      (s.allPartsValid && s.directivesFinite) := by
    cases parts : s.allPartsValid with
    | false => rfl
    | true => rw [directivesFinite_congr h.agreeOnInputs parts]
  have gather : ∀ {parts finite finite' : Bool} (a b c d e fit new : Bool),
      (parts && finite') = (parts && finite) →
      (a && b && c && parts && d && e && finite' && (fit && new)) =
        (a && b && c && parts && d && e && finite && fit && new) := by
    intro parts finite finite' a b c d e fit new h
    cases parts with
    | false => simp only [Bool.and_false, Bool.false_and]
    | true =>
        obtain rfl : finite' = finite := h
        rw [Bool.and_assoc (_ && finite')]
  simp only [isValid, eq_of_unapplied rootsValid_unapplied same,
    eq_of_unapplied allNamesFree_unapplied same,
    eq_of_unapplied allArgumentNamesDistinct_unapplied same,
    eq_of_unapplied allPartsValid_unapplied same, eq_of_unapplied allImplement_unapplied same,
    eq_of_unapplied inputObjectsFinite_unapplied same, applications]
  exact gather _ _ _ _ _ _ _ finite

/-- How often a directive is applied to an element, after one more application. -/
theorem count_of_gains
    (h : s.Gains d x p s')
    (found : s.place? x = some p)
    (y : Site)
    (n : Name) :
    s'.count y n = s.count y n + if x = y ∧ d.name = n then 1 else 0 := by
  by_cases hy : y = x
  · subst hy
    simp [count, h.place?_self, found, Place.count_attach]
  · have hx : ¬ (x = y ∧ d.name = n) := fun e => hy e.1.symm
    simp [count, h.place?_of_ne hy, hx]

end Steps

section Runs

/-- Appends applications one after the other. -/
def attachAll? (s : Schema) : List (Site × Directive) → Option Schema
  | [] => some s
  | (x, d) :: given => (s.attach? d x).bind fun s => s.attachAll? given

/-- The element is one that something comes out of, and the application fits there; its
directive may not be applied twice. -/
def Takes (s : Schema) (x : Site) (d : Directive) : Prop :=
  (∃ p, s.place? x = some p ∧ p.location.isOutput = true ∧
      s.applicationFits p.location d = true) ∧
    s.isRepeatable d.name = false

variable {s s' : Schema} {d : Directive} {x : Site} {p : Place}

theorem takes_of_gains
    (h : s.Gains d x p s')
    (found : s.place? x = some p)
    {y : Site}
    {e : Directive}
    (takes : s.Takes y e) :
    s'.Takes y e := by
  have same := unapplied_eq_of_attached h.attached
  obtain ⟨⟨q, hq, output, fits⟩, single⟩ := takes
  rw [← eq_of_unapplied applicationFits_unapplied same] at fits
  rw [← eq_of_unapplied isRepeatable_unapplied same] at single
  refine ⟨?_, single⟩
  by_cases hy : y = x
  · subst hy
    obtain rfl : p = q := Option.some.inj (found.symm.trans hq)
    exact ⟨p.attach d, h.place?_self, output, fits⟩
  · exact ⟨q, (h.place?_of_ne hy).trans hq, output, fits⟩

/-- Applications of directives that may not be applied twice can all be appended where they
fit.  A valid schema stays valid exactly if each stands alone of its name in the end. -/
theorem isValid_attachAll
    {given : List (Site × Directive)}
    (takes : ∀ a ∈ given, s.Takes a.1 a.2) :
    ∃ s', s.attachAll? given = some s' ∧
      (∀ y n, s'.count y n =
        s.count y n + given.countP (fun a => a.1 = y ∧ a.2.name = n)) ∧
      (s'.isValid = true ↔
        s.isValid = true ∧ ∀ a ∈ given, s'.count a.1 a.2.name = 1) := by
  induction given generalizing s with
  | nil => exact ⟨s, rfl, by simp, by simp⟩
  | cons a given ih =>
      obtain ⟨x, d⟩ := a
      obtain ⟨⟨p, found, output, fits⟩, single⟩ := takes _ List.mem_cons_self
      obtain ⟨s₁, attached, gains⟩ := gains_of_place? d found output
      obtain ⟨s', rest, counts, valid⟩ := ih (s := s₁) fun a ha =>
        takes_of_gains gains found (takes a (List.mem_cons_of_mem _ ha))
      have counts' : ∀ y n, s'.count y n =
          s.count y n + ((x, d) :: given).countP (fun a => a.1 = y ∧ a.2.name = n) := by
        intro y n
        rw [counts, count_of_gains gains found, List.countP_cons]
        simp only [decide_eq_true_eq]
        omega
      refine ⟨s', by rw [attachAll?, attached]; exact rest, counts', ?_⟩
      have first : s₁.isValid = true ↔ s.isValid = true ∧ s.count x d.name = 0 := by
        simp [isValid_of_gains gains, admits, fits, single, count, found]
      have head := counts' x d.name
      rw [List.countP_cons] at head
      simp only [and_self, decide_true, if_true] at head
      rw [valid, first, List.forall_mem_cons, and_assoc]
      refine and_congr_right fun _ => ⟨?_, ?_⟩
      · rintro ⟨fresh, once⟩
        refine ⟨?_, once⟩
        -- The same directive may be given to the same element again.
        by_cases again : given.countP (fun a => a.1 = x ∧ a.2.name = d.name) = 0
        · show s'.count x d.name = 1
          omega
        · obtain ⟨a, ha, hax⟩ := List.countP_pos_iff.mp (Nat.pos_of_ne_zero again)
          obtain ⟨hx, hd⟩ := of_decide_eq_true hax
          rw [← hx, ← hd]
          exact once a ha
      · rintro ⟨one, once⟩
        refine ⟨?_, once⟩
        have one' : s'.count x d.name = 1 := one
        omega

end Runs

end Schema
end Supergraph
