import Supergraph.Proofs.Validity.Alike

/-!
# Schemas that carry another one

A schema *carries* another one (`Schema.Carries`) if it has all of its types and directives,
types up to the order of their parts, and if whatever it has besides is *modest*: it looks at
nothing and brings no application with it.  Scalars of the language that nothing refers to
need not be carried.

What the rules ask of the parts of a valid schema then holds in the schema that carries it.
Most rules do not mind what else there is.  The one on applications does mind if a scalar of
the language that was referred to without a definition has become a type of the schema
(`Schema.LeavesOpen`): its values are looked at then.
-/

namespace Supergraph
namespace Schema

section References

variable {s : Schema} {n : Name}

theorem mem_referredTypes_of_directive
    {d : DirectiveDef}
    (hd : d ∈ s.directives.items)
    {a : InputValue}
    (ha : a ∈ d.arguments) :
    a.type.innermost ∈ s.referredTypes :=
  List.mem_append_right _ (List.mem_flatMap.mpr ⟨d, hd, List.mem_map.mpr ⟨a, ha, rfl⟩⟩)

theorem mem_referredTypes_of_inputField
    {t : TypeDef}
    (ht : t ∈ s.types.items)
    {a : InputValue}
    (ha : a ∈ t.body.inputFields) :
    a.type.innermost ∈ s.referredTypes :=
  List.mem_append_left _ (List.mem_flatMap.mpr
    ⟨t, ht, List.mem_append_right _ (List.mem_map.mpr ⟨a, ha, rfl⟩)⟩)

theorem mem_referredTypes_of_field
    {t : TypeDef}
    (ht : t ∈ s.types.items)
    {f : Field}
    (hf : f ∈ t.body.fields) :
    f.type.innermost ∈ s.referredTypes :=
  List.mem_append_left _ (List.mem_flatMap.mpr
    ⟨t, ht, List.mem_append_left _ (List.mem_flatMap.mpr ⟨f, hf, List.mem_cons_self⟩)⟩)

theorem mem_referredTypes_of_argument
    {t : TypeDef}
    (ht : t ∈ s.types.items)
    {f : Field}
    (hf : f ∈ t.body.fields)
    {a : InputValue}
    (ha : a ∈ f.arguments) :
    a.type.innermost ∈ s.referredTypes :=
  List.mem_append_left _ (List.mem_flatMap.mpr
    ⟨t, ht, List.mem_append_left _ (List.mem_flatMap.mpr
      ⟨f, hf, List.mem_cons_of_mem _ (List.mem_map.mpr ⟨a, ha, rfl⟩)⟩)⟩)

theorem isInputObject_of_mem_heldBy
    {m : Name}
    (held : m ∈ s.heldBy n) :
    s.isInputObject m = true := by
  unfold heldBy at held
  split at held
  · exact (List.mem_filter.mp held).2
  · cases held

end References

section Carrying

/-- The type follows the rules and has none of what leads to other rules. -/
structure Modest (s : Schema) (t : TypeDef) : Prop where
  namesFree : s.typeNamesFree t = true
  hasParts : typeHasParts t = true
  fields : t.body.fields = []
  interfaces : t.body.interfaces = []
  members : t.body.members = []
  inputs : s.argumentTypesValid t.body.inputFields = true
  holds : s.heldBy t.name = []
  applications : t.applications = []
  onValues : ∀ v ∈ t.body.values, v.directives = []
  onInputFields : ∀ v ∈ t.body.inputFields, v.directives = []

/-- The directive follows the rules and has no applications. -/
structure ModestDirective (s : Schema) (d : DirectiveDef) : Prop where
  namesFree : directiveNamesFree d = true
  distinct : argumentNamesDistinct d.arguments = true
  inputs : s.argumentTypesValid d.arguments = true
  unapplied : ∀ a ∈ d.arguments, a.directives = []

/-- A scalar is modest, as long as its name is free and nothing is applied to it. -/
theorem modest_of_scalar
    {s : Schema}
    {t : TypeDef}
    (scalar : t.body = .scalar)
    (applications : t.applications = [])
    (free : t.name.isReserved = false)
    (defined : s.type? t.name = some t) :
    s.Modest t where
  namesFree := by simp [typeNamesFree, partNamesFree, free, scalar, TypeBody.fields,
    TypeBody.values, TypeBody.inputFields, argumentNamesFree]
  hasParts := by simp [typeHasParts, scalar]
  fields := by rw [scalar]; rfl
  interfaces := by rw [scalar]; rfl
  members := by rw [scalar]; rfl
  inputs := by rw [scalar]; rfl
  holds := by simp [heldBy, defined, scalar, TypeBody.inputFields]
  applications := applications
  onValues := by rw [scalar]; exact List.forall_mem_nil _
  onInputFields := by rw [scalar]; exact List.forall_mem_nil _

/-- The second schema has what is in the first, and nothing besides that breaks a rule. -/
structure Carries (s s' : Schema) : Prop where
  roots : ∀ k, (s'.definition.root k).map Sourced.item = (s.definition.root k).map Sourced.item
  introspection : ∀ n ∈ s.introspection, n ∈ s'.introspection
  type : ∀ n t, s.type? n = some t →
    (t.isBuiltInScalar = true ∧ n ∉ s.referredTypes) ∨ ∃ u, s'.type? n = some u ∧ t.Alike u
  scalar : ∀ n ∈ BuiltIn.scalarNames, s.type? n = none → ∀ u, s'.type? n = some u → u.kind = .scalar
  types : ∀ u ∈ s'.types.items, (∃ t, s.type? u.name = some t ∧ t.Alike u) ∨ s'.Modest u
  directive : ∀ n d, s.directive? n = some d → s'.directive? n = some d
  directives : ∀ d ∈ s'.directives.items, d ∈ s.directives.items ∨ s'.ModestDirective d

namespace Carries

variable {s s' : Schema} (h : s.Carries s')

include h

theorem type?_of_referred
    {n : Name}
    {t : TypeDef}
    (referred : n ∈ s.referredTypes)
    (defined : s.type? n = some t) :
    ∃ u, s'.type? n = some u ∧ t.Alike u := by
  rcases h.type n t defined with ⟨-, spare⟩ | carried
  · exact absurd referred spare
  · exact carried

theorem type?_of_kind
    {n : Name}
    {t : TypeDef}
    (defined : s.type? n = some t)
    (kind : t.kind ≠ .scalar) :
    ∃ u, s'.type? n = some u ∧ t.Alike u := by
  rcases h.type n t defined with ⟨scalar, -⟩ | carried
  · simp [TypeDef.isBuiltInScalar, kind] at scalar
  · exact carried

/-- What holds of the types of the first schema, in whatever order their parts are, and of
modest types holds of all types of the second. -/
theorem forall_types
    {P : TypeDef → Prop}
    (old : ∀ t ∈ s.types.items, ∀ u, t.Alike u → P u)
    (new : ∀ u ∈ s'.types.items, s'.Modest u → P u) :
    ∀ u ∈ s'.types.items, P u := by
  intro u hu
  rcases h.types u hu with ⟨t, defined, alike⟩ | modest
  · exact old t (Table.get?_eq_some_iff.mp defined).1 u alike
  · exact new u hu modest

section Names

theorem rootsValid
    (valid : s.rootsValid = true) :
    s'.rootsValid = true := by
  have names : ∀ d : SchemaDef, d.roots.map (fun r => r.2.item) =
      OperationKind.all.filterMap (fun k => (d.root k).map Sourced.item) := by
    intro d
    simp [SchemaDef.roots, List.map_filterMap, Function.comp_def]
  have query : s'.definition.query.isSome = s.definition.query.isSome := by
    have same := congrArg Option.isSome (h.roots .query)
    rwa [Option.isSome_map, Option.isSome_map] at same
  have object : ∀ n, s.isObject n = true → s'.isObject n = true := by
    intro n hn
    unfold isObject at hn ⊢
    split at hn
    · rename_i t defined
      have kind : t.kind = .object := by simpa using hn
      obtain ⟨u, defined', alike⟩ := h.type?_of_kind defined (by simp [kind])
      simp [defined', alike.kind, kind]
    · cases hn
  simp only [Schema.rootsValid, names, h.roots, query, Bool.and_eq_true, List.all_eq_true]
    at valid ⊢
  exact ⟨⟨valid.1.1, fun n hn => object n (valid.1.2 n hn)⟩, valid.2⟩

theorem allNamesFree
    (valid : s.allNamesFree = true) :
    s'.allNamesFree = true := by
  simp only [Schema.allNamesFree, Bool.and_eq_true, List.all_eq_true] at valid ⊢
  refine ⟨h.forall_types (fun t ht u alike => ?_) fun u _ modest => modest.namesFree, ?_⟩
  · have free := valid.1 t ht
    simp only [typeNamesFree, Bool.and_eq_true, Bool.or_eq_true, List.contains_iff_mem] at free ⊢
    rw [alike.name, alike.partNamesFree]
    exact ⟨free.1.imp_right (h.introspection _), free.2⟩
  · intro d hd
    rcases h.directives d hd with old | modest
    · exact valid.2 d old
    · exact modest.namesFree

theorem allArgumentNamesDistinct
    (valid : s.allArgumentNamesDistinct = true) :
    s'.allArgumentNamesDistinct = true := by
  simp only [Schema.allArgumentNamesDistinct, Bool.and_eq_true, List.all_eq_true] at valid ⊢
  refine ⟨h.forall_types (fun t ht u alike f hf => ?_) fun u _ modest => ?_, ?_⟩
  · exact valid.1 t ht f (alike.fields.mem_iff.mp hf)
  · simp [modest.fields]
  · intro d hd
    rcases h.directives d hd with old | modest
    · exact valid.2 d old
    · exact modest.distinct

end Names

section Parts

theorem refersTo
    {wanted : TypeDef → Bool}
    (blind : ∀ {t u : TypeDef}, t.Alike u → wanted u = wanted t)
    (scalars : ∀ t : TypeDef, t.kind = .scalar → wanted t = true)
    {r : TypeRef}
    (referred : r.innermost ∈ s.referredTypes)
    (valid : s.refersTo wanted r = true) :
    s'.refersTo wanted r = true := by
  unfold Schema.refersTo at valid
  split at valid
  · rename_i t defined
    obtain ⟨u, defined', alike⟩ := h.type?_of_referred referred defined
    simp only [Schema.refersTo, defined', blind alike, valid]
  · rename_i absent
    unfold Schema.refersTo
    split
    · rename_i u defined'
      exact scalars u (h.scalar _ (List.contains_iff_mem.mp valid) absent u defined')
    · exact valid

theorem argumentTypesValid
    {vs : List InputValue}
    (referred : ∀ v ∈ vs, v.type.innermost ∈ s.referredTypes)
    (valid : s.argumentTypesValid vs = true) :
    s'.argumentTypesValid vs = true := by
  simp only [Schema.argumentTypesValid, List.all_eq_true] at valid ⊢
  exact fun v hv => h.refersTo (fun alike => alike.isInput)
    (fun t scalar => by simp [TypeDef.isInput, scalar]) (referred v hv) (valid v hv)

theorem allPartsValid
    (valid : s.allPartsValid = true) :
    s'.allPartsValid = true := by
  simp only [Schema.allPartsValid, Bool.and_eq_true, List.all_eq_true] at valid ⊢
  refine ⟨h.forall_types (fun t ht u alike => ?_) fun u _ modest => ?_, ?_⟩
  · obtain ⟨parts, valid⟩ := valid.1 t ht
    refine ⟨alike.typeHasParts.trans parts, ?_⟩
    simp only [partTypesValid, Bool.and_eq_true, List.all_eq_true] at valid ⊢
    obtain ⟨⟨fields, inputs⟩, members⟩ := valid
    refine ⟨⟨fun f hf => ?_, ?_⟩, fun n hn => ?_⟩
    · have hf := alike.fields.mem_iff.mp hf
      refine ⟨h.refersTo (fun alike => alike.isOutput)
        (fun t scalar => by simp [TypeDef.isOutput, scalar])
        (mem_referredTypes_of_field ht hf) (fields f hf).1, ?_⟩
      exact h.argumentTypesValid (fun a ha => mem_referredTypes_of_argument ht hf ha)
        (fields f hf).2
    · have same : s'.argumentTypesValid u.body.inputFields =
          s'.argumentTypesValid t.body.inputFields := alike.inputFields.all_eq
      rw [same]
      exact h.argumentTypesValid (fun a ha => mem_referredTypes_of_inputField ht ha) inputs
    · have object := members n (alike.members.mem_iff.mp hn)
      unfold isObject at object ⊢
      split at object
      · rename_i m defined
        have kind : m.kind = .object := by simpa using object
        obtain ⟨m', defined', alike⟩ := h.type?_of_kind defined (by simp [kind])
        simp [defined', alike.kind, kind]
      · cases object
  · simp [modest.hasParts, partTypesValid, modest.fields, modest.members, modest.inputs]
  · intro d hd
    rcases h.directives d hd with old | modest
    · exact h.argumentTypesValid (fun a ha => mem_referredTypes_of_directive old ha) (valid.2 d old)
    · exact modest.inputs

end Parts

section Interfaces

theorem isPartOf
    {n abstract : Name}
    (part : s.isPartOf n abstract = true) :
    s'.isPartOf n abstract = true := by
  unfold Schema.isPartOf at part
  split at part
  · rename_i a defined
    split at part
    · rename_i union
      obtain ⟨a', defined', alike⟩ := h.type?_of_kind defined (by simp [union])
      have member := List.contains_iff_mem.mp part
      simp [Schema.isPartOf, defined', alike.kind, union, alike.members.mem_iff, member]
    · rename_i interface
      obtain ⟨a', defined', alike⟩ := h.type?_of_kind defined (by simp [interface])
      split at part
      · rename_i t ht
        have mem := List.contains_iff_mem.mp part
        have kind : t.kind ≠ .scalar := by
          intro scalar
          rw [TypeBody.eq_scalar_of_kind scalar] at mem
          cases mem
        obtain ⟨t', ht', alike'⟩ := h.type?_of_kind ht kind
        simp [Schema.isPartOf, defined', alike.kind, interface, ht', alike'.interfaces.mem_iff, mem]
      · cases part
    · cases part
  · cases part

theorem isSubtype
    {t u : TypeRef}
    (sub : s.isSubtype t u = true) :
    s'.isSubtype t u = true := by
  induction t generalizing u with
  | named n b =>
      cases u with
      | named m c =>
          simp only [Schema.isSubtype, Bool.and_eq_true, Bool.or_eq_true] at sub ⊢
          exact ⟨sub.1, sub.2.imp_right h.isPartOf⟩
      | list => cases sub
  | list t b ih =>
      cases u with
      | named => cases sub
      | list u c =>
          simp only [Schema.isSubtype, Bool.and_eq_true] at sub ⊢
          exact ⟨sub.1, ih sub.2⟩

theorem fieldImplements
    {f asked : Field}
    (implements : s.fieldImplements f asked = true) :
    s'.fieldImplements f asked = true := by
  simp only [Schema.fieldImplements, Bool.and_eq_true] at implements ⊢
  exact ⟨⟨h.isSubtype implements.1.1, implements.1.2⟩, implements.2⟩

theorem implements
    {t u : TypeDef}
    (alike : t.Alike u)
    {n : Name}
    (implements : s.implements t n = true) :
    s'.implements u n = true := by
  unfold Schema.implements at implements
  split at implements
  · rename_i i defined
    simp only [Bool.and_eq_true, List.all_eq_true, beq_iff_eq] at implements
    obtain ⟨⟨⟨kind, other⟩, further⟩, fields⟩ := implements
    obtain ⟨i', defined', alike'⟩ := h.type?_of_kind defined (by simp [kind])
    simp only [Schema.implements, defined', Bool.and_eq_true, List.all_eq_true, beq_iff_eq]
    refine ⟨⟨⟨alike'.kind.trans kind, alike.name ▸ other⟩, fun m hm => ?_⟩, fun asked hasked => ?_⟩
    · have mem := List.contains_iff_mem.mp (further m (alike'.interfaces.mem_iff.mp hm))
      exact List.contains_iff_mem.mpr (alike.interfaces.mem_iff.mpr mem)
    · have given := fields asked (alike'.fields.mem_iff.mp hasked)
      rw [alike.lookup_fields]
      split at given
      · exact h.fieldImplements given
      · cases given
  · cases implements

theorem allImplement
    (valid : s.allImplement = true) :
    s'.allImplement = true := by
  simp only [Schema.allImplement, List.all_eq_true] at valid ⊢
  refine h.forall_types (fun t ht u alike n hn => ?_) fun u _ modest n hn => ?_
  · exact h.implements alike (valid t ht n (alike.interfaces.mem_iff.mp hn))
  · rw [modest.interfaces] at hn
    cases hn

end Interfaces

section InputObjects

theorem isInputObject_of_carried
    {n : Name}
    (valid : s.refersTo TypeDef.isInput (.named n true) = true)
    (referred : n ∈ s.referredTypes)
    (held : s'.isInputObject n = true) :
    s.isInputObject n = true := by
  unfold Schema.refersTo at valid
  unfold Schema.isInputObject at held
  split at held
  · rename_i u defined'
    have kind : u.kind = .inputObject := by simpa using held
    split at valid
    · rename_i t defined
      obtain ⟨u', same, alike⟩ := h.type?_of_referred referred defined
      rw [show s'.type? n = some u' from same, Option.some_inj] at defined'
      subst defined'
      have defined : s.type? n = some t := defined
      simp [Schema.isInputObject, defined, ← alike.kind, kind]
    · rename_i absent
      have scalar := h.scalar n (List.contains_iff_mem.mp valid) absent u defined'
      rw [kind] at scalar
      cases scalar
  · cases held

/-- An input object holds no more than it did. -/
theorem heldBy_subset
    (parts : s.allPartsValid = true)
    {n : Name}
    (object : s.isInputObject n = true) :
    ∀ m ∈ s'.heldBy n, m ∈ s.heldBy n := by
  intro m hm
  unfold Schema.isInputObject at object
  split at object
  · rename_i t defined
    have kind : t.kind = .inputObject := by simpa using object
    obtain ⟨u, defined', alike⟩ := h.type?_of_kind defined (by simp [kind])
    have ht := (Table.get?_eq_some_iff.mp defined).1
    simp only [heldBy, defined', List.mem_filter, List.mem_filterMap] at hm
    obtain ⟨⟨v, hv, always⟩, input⟩ := hm
    have hv := alike.inputFields.mem_iff.mp hv
    have named : v.type = .named m true := by
      unfold alwaysHolds at always
      split at always
      · rename_i n' same
        rw [same, Option.some.inj always]
      · cases always
    have referred := mem_referredTypes_of_inputField ht hv
    simp only [Schema.allPartsValid, partTypesValid, Bool.and_eq_true, List.all_eq_true] at parts
    have valid := List.all_eq_true.mp (parts.1 t ht).2.1.2 v hv
    rw [named] at referred valid
    simp only [heldBy, defined, List.mem_filter, List.mem_filterMap]
    exact ⟨⟨v, hv, always⟩, h.isInputObject_of_carried valid referred input⟩
  · cases object

theorem heldAt_subset
    (parts : s.allPartsValid = true)
    (levels : Nat)
    {ns ns' : List Name}
    (fewer : ∀ n ∈ ns', n ∈ ns ∧ s.isInputObject n = true) :
    ∀ n ∈ s'.heldAt levels ns', n ∈ s.heldAt levels ns := by
  induction levels generalizing ns ns' with
  | zero => exact fun n hn => (fewer n hn).1
  | succ levels ih =>
      refine ih fun m hm => ?_
      rw [List.mem_eraseDups, List.mem_flatMap] at hm
      obtain ⟨n, hn, held⟩ := hm
      obtain ⟨mem, object⟩ := fewer n hn
      have held := h.heldBy_subset parts object m held
      exact ⟨List.mem_eraseDups.mpr (List.mem_flatMap.mpr ⟨n, mem, held⟩),
        isInputObject_of_mem_heldBy held⟩

theorem inputObjectsFinite
    (parts : s.allPartsValid = true)
    (valid : s.inputObjectsFinite = true) :
    s'.inputObjectsFinite = true := by
  simp only [Schema.inputObjectsFinite, List.isEmpty_iff, List.eq_nil_iff_forall_not_mem] at valid ⊢
  intro n hn
  -- What is modest holds nothing, and is out of sight one level down.
  refine valid n (h.heldAt_subset parts 31 (fun m hm => ?_) n hn)
  rw [List.mem_eraseDups, List.mem_flatMap] at hm
  obtain ⟨k, hk, held⟩ := hm
  obtain ⟨present, object⟩ := List.mem_filter.mp hk
  obtain ⟨u, hu, named⟩ := Table.mem_keys_iff.mp present
  obtain rfl : u.name = k := named
  rcases h.types u hu with ⟨t, defined, alike⟩ | modest
  · have kind : u.kind = .inputObject := by
      unfold Schema.isInputObject at object
      rw [show s'.type? u.name = some u from Table.get?_key hu] at object
      simpa using object
    have object' : s.isInputObject u.name = true := by
      simp [Schema.isInputObject, defined, ← alike.kind, kind]
    have held := h.heldBy_subset parts object' m held
    have first : u.name ∈ s.types.keys.filter s.isInputObject :=
      List.mem_filter.mpr ⟨Table.mem_keys_of_get? defined, object'⟩
    exact ⟨List.mem_eraseDups.mpr (List.mem_flatMap.mpr ⟨_, first, held⟩),
      isInputObject_of_mem_heldBy held⟩
  · rw [modest.holds] at held
    cases held

end InputObjects

end Carries

/-- What is referred to without a definition is not defined in the second schema either. -/
def LeavesOpen (s s' : Schema) : Prop :=
  ∀ n ∈ s.referredTypes, s.type? n = none → s'.type? n = none

section Values

variable {s s' : Schema}

theorem innermost_item
    (t : TypeRef) :
    t.item.innermost = t.innermost := by
  cases t <;> rfl

/-- A type that is referred to is defined in both schemas or in none of them. -/
theorem Carries.type?_of_leavesOpen
    (h : s.Carries s')
    (unseen : s.LeavesOpen s')
    {n : Name}
    (referred : n ∈ s.referredTypes) :
    (s.type? n = none ∧ s'.type? n = none) ∨
      ∃ t u, s.type? n = some t ∧ s'.type? n = some u ∧ t.Alike u := by
  cases defined : s.type? n with
  | none => exact Or.inl ⟨rfl, unseen n referred defined⟩
  | some t =>
      obtain ⟨u, defined', alike⟩ := h.type?_of_referred referred defined
      exact Or.inr ⟨t, u, rfl, defined', alike⟩

mutual

theorem Carries.conforms_eq
    (h : s.Carries s')
    (unseen : s.LeavesOpen s')
    (x : Value)
    (r : TypeRef)
    (referred : r.innermost ∈ s.referredTypes) :
    s'.conforms x r = s.conforms x r := by
  rcases h.type?_of_leavesOpen unseen referred with
    ⟨absent, absent'⟩ | ⟨t, u, defined, defined', alike⟩
  · simp only [conforms, absent, absent']
  · cases x with
    | null => simp only [conforms, defined, defined']
    | int l => simp only [conforms, defined, defined', alike.takesInt]
    | float l => simp only [conforms, defined, defined', alike.takesFloat]
    | string l => simp only [conforms, defined, defined', alike.takesString]
    | boolean b => simp only [conforms, defined, defined', alike.takesBoolean]
    | enum n => simp only [conforms, defined, defined', alike.takesEnum]
    | var n => simp only [conforms, defined, defined']
    | list xs =>
        have items := h.conformAll_eq unseen xs r.item (innermost_item r ▸ referred)
        simp only [conforms, defined, defined', items, alike.isCustomScalar, alike.isInput]
    | object fs =>
        have fields := h.conformFields_eq unseen fs t.body.inputFields u.body.inputFields []
          (fun v hv => mem_referredTypes_of_inputField (Table.get?_eq_some_iff.mp defined).1 hv)
          alike.lookup_inputFields
        simp only [conforms, defined, defined', fields, alike.isCustomScalar, alike.kind,
          alike.givesRequired]

theorem Carries.conformAll_eq
    (h : s.Carries s')
    (unseen : s.LeavesOpen s') :
    ∀ (xs : List Value) (r : TypeRef),
      r.innermost ∈ s.referredTypes →
      s'.conformAll xs r = s.conformAll xs r
  | [], _, _ => rfl
  | x :: xs, r, referred => by
      simp only [conformAll, h.conforms_eq unseen x r referred,
        h.conformAll_eq unseen xs r referred]

theorem Carries.conformFields_eq
    (h : s.Carries s')
    (unseen : s.LeavesOpen s') :
    ∀ (fs : List (Name × Value)) (vs ws : List InputValue) (seen : List Name),
      (∀ v ∈ vs, v.type.innermost ∈ s.referredTypes) →
      (∀ n, lookup n ws = lookup n vs) →
      s'.conformFields ws seen fs = s.conformFields vs seen fs
  | [], _, _, _, _, _ => rfl
  | (n, x) :: fs, vs, ws, seen, referred, same => by
      simp only [conformFields, same, h.conformFields_eq unseen fs vs ws _ referred same]
      cases found : lookup n vs with
      | none => rfl
      | some v =>
          simp only [h.conforms_eq unseen x v.type (referred v (List.mem_of_find?_eq_some found))]

end

end Values

namespace Carries

variable {s s' : Schema} (h : s.Carries s')

include h

section Applications

theorem applicationFits
    (unseen : s.LeavesOpen s')
    {l : Location}
    {a : Directive}
    (fits : s.applicationFits l a = true) :
    s'.applicationFits l a = true := by
  unfold Schema.applicationFits at fits
  split at fits
  · cases fits
  · rename_i d defined
    have hd := (Table.get?_eq_some_iff.mp defined).1
    have conform : s'.argumentsConform d a = s.argumentsConform d a := by
      unfold argumentsConform
      refine List.all_congr rfl fun x => ?_
      cases found : lookup x.name d.arguments with
      | none => rfl
      | some v =>
          exact h.conforms_eq unseen x.value v.type
            (mem_referredTypes_of_directive hd (List.mem_of_find?_eq_some found))
    simp only [Schema.applicationFits, h.directive _ d defined, conform, fits]

theorem isRepeatable
    {n : Name}
    (repeatable : s.isRepeatable n = true) :
    s'.isRepeatable n = true := by
  unfold Schema.isRepeatable at repeatable
  split at repeatable
  · rename_i d defined
    simp only [Schema.isRepeatable, h.directive _ d defined, repeatable]
  · cases repeatable

theorem applicationsFit
    (unseen : s.LeavesOpen s')
    {l : Location}
    {ds : List Directive}
    (fit : s.applicationsFit l ds = true) :
    s'.applicationsFit l ds = true := by
  simp only [Schema.applicationsFit, repeatsAllowed, Bool.and_eq_true, List.all_eq_true,
    Bool.or_eq_true] at fit ⊢
  exact ⟨fun a ha => h.applicationFits unseen (fit.1 a ha),
    fun a ha => (fit.2 a ha).imp_left h.isRepeatable⟩

theorem argumentApplicationsFit
    (unseen : s.LeavesOpen s')
    {vs : List InputValue}
    (fit : s.argumentApplicationsFit vs = true) :
    s'.argumentApplicationsFit vs = true := by
  simp only [Schema.argumentApplicationsFit, List.all_eq_true] at fit ⊢
  exact fun v hv => h.applicationsFit unseen (fit v hv)

theorem typeApplicationsFit
    (unseen : s.LeavesOpen s')
    {t : TypeDef}
    (fit : s.typeApplicationsFit t = true) :
    s'.typeApplicationsFit t = true := by
  simp only [Schema.typeApplicationsFit, Bool.or_eq_true, Bool.and_eq_true, List.all_eq_true]
    at fit ⊢
  refine fit.imp_right ?_
  rintro ⟨⟨⟨whole, fields⟩, values⟩, inputs⟩
  exact ⟨⟨⟨h.applicationsFit unseen whole,
    fun f hf => ⟨h.applicationsFit unseen (fields f hf).1,
      h.argumentApplicationsFit unseen (fields f hf).2⟩⟩,
    fun v hv => h.applicationsFit unseen (values v hv)⟩,
    fun v hv => h.applicationsFit unseen (inputs v hv)⟩

/-- The applications in the second schema are right if those on its schema definition are. -/
theorem allApplicationsFit
    (unseen : s.LeavesOpen s')
    (fit : s.allApplicationsFit = true)
    (definition : s'.applicationsFit .schema s'.definition.applications = true) :
    s'.allApplicationsFit = true := by
  have none : ∀ l, s'.applicationsFit l [] = true := fun _ => rfl
  simp only [Schema.allApplicationsFit, Bool.and_eq_true, List.all_eq_true] at fit ⊢
  refine ⟨⟨definition, fun d hd => ?_⟩,
    h.forall_types (fun t ht u alike => ?_) fun u _ modest => ?_⟩
  · rcases h.directives d hd with old | modest
    · exact h.argumentApplicationsFit unseen (fit.1.2 d old)
    · refine List.all_eq_true.mpr fun a ha => ?_
      rw [modest.unapplied a ha]
      exact none _
  · rw [typeApplicationsFit_alike alike]
    exact h.typeApplicationsFit unseen (fit.2 t ht)
  · simp only [Schema.typeApplicationsFit, Bool.or_eq_true, Bool.and_eq_true, List.all_eq_true]
    refine Or.inr ⟨⟨⟨?_, ?_⟩, fun v hv => ?_⟩, fun v hv => ?_⟩
    · rw [modest.applications]
      exact none _
    · simp [modest.fields]
    · rw [modest.onValues v hv]
      exact none _
    · rw [modest.onInputFields v hv]
      exact none _

end Applications

/-- A schema that carries a valid one follows all rules but two at any rate. -/
theorem isValid_iff
    (valid : s.isValid = true) :
    s'.isValid = true ↔ s'.directivesFinite = true ∧ s'.allApplicationsFit = true := by
  simp only [Schema.isValid, Bool.and_eq_true] at valid
  obtain ⟨⟨⟨⟨⟨⟨⟨roots, names⟩, distinct⟩, parts⟩, implement⟩, inputs⟩, -⟩, -⟩ := valid
  simp only [Schema.isValid, h.rootsValid roots, h.allNamesFree names,
    h.allArgumentNamesDistinct distinct, h.allPartsValid parts, h.allImplement implement,
    h.inputObjectsFinite parts inputs, Bool.true_and, Bool.and_eq_true]

end Carries

end Carrying

end Schema
end Supergraph
