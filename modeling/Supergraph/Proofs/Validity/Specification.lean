import Mathlib.Logic.Relation
import Supergraph.Proofs.Conformance
import Supergraph.Proofs.Validity.Place

/-!
# Validity as the specification has it

The rules for type definitions, directive definitions and applications of directives, without
the liberties that a library takes.  Applications are looked at wherever they stand, on the
scalars of the language too; values have to be of their types also where a scalar of the
language is referred to without a definition; and a chain of definitions may have any length,
as long as it does not lead back to where it began.

`Schema.Lawful` has one field for each group of rules.  The first five say what the library
checks, since the specification says the same; the others are stated here.  What is right in a
schema stays right in one that keeps its definitions (`Schema.Right.keep`).
-/

namespace Supergraph
namespace Schema

section Values

/-- These are names that parameters may be given under: none of them twice, all of them
declared, and every required one among them. -/
structure Gives (parameters : List InputValue) (names : List Name) : Prop where
  distinct : names.Nodup
  declared : ∀ n ∈ names, n ∈ parameters.map InputValue.name
  required : ∀ p ∈ parameters, p.isRequired = true → p.name ∈ names

/-- The value may be given where this type is asked for. -/
inductive Allows (s : Schema) : Value → TypeRef → Prop
  | null
      {t : TypeRef}
      (nullable : t.isNonNull = false) :
      Allows s .null t
  | language
      {x : Value}
      {n : Name}
      {b : Bool}
      (takes : BuiltIn.takes n x = true) :
      Allows s x (.named n b)
  | custom
      {x : Value}
      {n : Name}
      {b : Bool}
      {d : TypeDef}
      (defined : s.type? n = some d)
      (scalar : d.kind = .scalar)
      (own : n ∉ BuiltIn.scalarNames)
      (given : x.isNull = false) :
      Allows s x (.named n b)
  | enum
      {k n : Name}
      {b : Bool}
      {d : TypeDef}
      (defined : s.type? n = some d)
      (value : k ∈ d.body.values.map EnumValue.name) :
      Allows s (.enum k) (.named n b)
  | object
      {fs : List (Name × Value)}
      {n : Name}
      {b : Bool}
      {d : TypeDef}
      (defined : s.type? n = some d)
      (input : d.kind = .inputObject)
      (names : Gives d.body.inputFields (fs.map Prod.fst))
      (fields : ∀ x ∈ fs, ∀ p ∈ d.body.inputFields, p.name = x.1 → Allows s x.2 p.type) :
      Allows s (.object fs) (.named n b)
  | list
      {xs : List Value}
      {t : TypeRef}
      {b : Bool}
      (items : ∀ x ∈ xs, Allows s x t) :
      Allows s (.list xs) (.list t b)
  | single
      {x : Value}
      {t : TypeRef}
      {b : Bool}
      (one : ∀ xs, x ≠ .list xs)
      (given : x.isNull = false)
      (item : Allows s x t) :
      Allows s x (.list t b)

theorem gives_of_covers
    {parameters : List InputValue}
    {names : List Name}
    (h : Covers parameters names) :
    Gives parameters names where
  distinct := h.distinct
  declared := h.declared
  required := by
    intro p hp required
    simp only [InputValue.isRequired, Bool.and_eq_true] at required
    exact h.complete p hp required.1

/-- What is of a type may be given for it. -/
theorem HasType.allows
    {s : Schema}
    {x : Value}
    {t : TypeRef}
    (h : s.HasType x t) :
    s.Allows x t := by
  induction h with
  | null nullable => exact .null nullable
  | language _ takes => exact .language takes
  | custom scalar own given =>
      obtain ⟨d, defined, kind⟩ := scalar
      exact .custom defined kind own given
  | enum defined value => exact .enum defined value
  | list _ ih => exact .list ih
  | object defined input names _ ih => exact .object defined input (gives_of_covers names) ih

end Values

section Applications

/-- The application is right in a place of this location. -/
def Applies (s : Schema) (l : Location) (a : Directive) : Prop :=
  ∃ d, s.directive? a.name = some d ∧ l ∈ d.locations ∧
    Gives d.arguments (a.arguments.map Argument.name) ∧
    ∀ x ∈ a.arguments, ∀ p ∈ d.arguments, p.name = x.name → s.Allows x.value p.type

/-- The applications in this place are right: each of them, and none is there twice that may
not be repeated. -/
structure Right (s : Schema) (p : Place) : Prop where
  each : ∀ a ∈ p.applications, s.Applies p.location a
  once : ∀ n d, s.directive? n = some d → d.repeatable = false → p.count n ≤ 1

/-- The places of arguments. -/
def argumentPlaces (vs : List InputValue) : List Place :=
  vs.map fun v => ⟨.argumentDefinition, v.directives⟩

/-- The places of a type and its parts. -/
def typePlaces (t : TypeDef) : List Place :=
  ⟨t.kind.location, t.applications⟩
    :: t.body.fields.flatMap (fun f => ⟨.fieldDefinition, f.directives⟩ :: argumentPlaces f.arguments)
      ++ t.body.values.map (fun v => ⟨.enumValue, v.directives⟩)
      ++ t.body.inputFields.map (fun v => ⟨.inputFieldDefinition, v.directives⟩)

/-- All places of a schema. -/
def places (s : Schema) : List Place :=
  ⟨.schema, s.definition.applications⟩
    :: s.directives.items.flatMap (fun d => argumentPlaces d.arguments)
      ++ s.types.items.flatMap typePlaces

variable {s : Schema} {t : TypeDef} {v : InputValue}

theorem place_of_directive
    {d : DirectiveDef}
    (hd : d ∈ s.directives.items)
    (hv : v ∈ d.arguments) :
    ⟨.argumentDefinition, v.directives⟩ ∈ s.places :=
  List.mem_append_left _ (List.mem_cons_of_mem _
    (List.mem_flatMap.mpr ⟨d, hd, List.mem_map.mpr ⟨v, hv, rfl⟩⟩))

theorem place_of_type
    {p : Place}
    (ht : t ∈ s.types.items)
    (hp : p ∈ typePlaces t) :
    p ∈ s.places :=
  List.mem_append_right _ (List.mem_flatMap.mpr ⟨t, ht, hp⟩)

theorem mem_typePlaces_self :
    ⟨t.kind.location, t.applications⟩ ∈ typePlaces t := by
  simp [typePlaces]

theorem mem_typePlaces_value
    {x : EnumValue}
    (hx : x ∈ t.body.values) :
    ⟨.enumValue, x.directives⟩ ∈ typePlaces t :=
  List.mem_append_left _ (List.mem_append_right _ (List.mem_map.mpr ⟨x, hx, rfl⟩))

theorem mem_typePlaces_inputField
    (hv : v ∈ t.body.inputFields) :
    ⟨.inputFieldDefinition, v.directives⟩ ∈ typePlaces t :=
  List.mem_append_right _ (List.mem_map.mpr ⟨v, hv, rfl⟩)

end Applications

section References

/-- Each object of the first type holds one of the second, and this by a field that may be
neither null nor a list. -/
def Holds (s : Schema) (n m : Name) : Prop :=
  ∃ t, s.type? n = some t ∧ ∃ v ∈ t.body.inputFields, v.type = .named m true

/-- What is mentioned by applications: their directives. -/
def applicationMentions (ds : List Directive) : List Referent :=
  ds.map fun d => .directive d.name

/-- What is mentioned by arguments or input fields: their types, and the directives on them. -/
def inputMentions (vs : List InputValue) : List Referent :=
  vs.flatMap fun v => .type v.type.innermost :: applicationMentions v.directives

/-- What a type mentions: what is applied to it and to its values, and what its input fields
mention.  An argument is of an input type, so nothing is asked of the fields of objects. -/
def typeMentions (t : TypeDef) : List Referent :=
  applicationMentions t.applications
    ++ t.body.values.flatMap (fun v => applicationMentions v.directives)
    ++ inputMentions t.body.inputFields

/-- The first definition mentions the second. -/
inductive Mentions (s : Schema) : Referent → Referent → Prop
  | directive
      {n : Name}
      {d : DirectiveDef}
      {r : Referent}
      (defined : s.directive? n = some d)
      (mentioned : r ∈ inputMentions d.arguments) :
      Mentions s (.directive n) r
  | type
      {n : Name}
      {t : TypeDef}
      {r : Referent}
      (defined : s.type? n = some t)
      (mentioned : r ∈ typeMentions t) :
      Mentions s (.type n) r

theorem mem_applicationMentions_iff
    {ds : List Directive}
    {r : Referent} :
    r ∈ applicationMentions ds ↔ ∃ a ∈ ds, .directive a.name = r :=
  List.mem_map

theorem mem_inputMentions_iff
    {vs : List InputValue}
    {r : Referent} :
    r ∈ inputMentions vs ↔
      ∃ v ∈ vs, r = .type v.type.innermost ∨ r ∈ applicationMentions v.directives := by
  simp only [inputMentions, List.mem_flatMap, List.mem_cons]

theorem mem_typeMentions_iff
    {t : TypeDef}
    {r : Referent} :
    r ∈ typeMentions t ↔
      r ∈ applicationMentions t.applications ∨
        (∃ v ∈ t.body.values, r ∈ applicationMentions v.directives) ∨
        r ∈ inputMentions t.body.inputFields := by
  simp only [typeMentions, List.mem_append, List.mem_flatMap, or_assoc]

theorem kind_of_mem_inputFields
    {t : TypeDef}
    {v : InputValue}
    (hv : v ∈ t.body.inputFields) :
    t.kind = .inputObject := by
  obtain ⟨_, _, _, _, body⟩ := t
  cases body with
  | inputObject => rfl
  | _ => cases hv

end References

/-- The schema is valid as the specification has it. -/
structure Lawful (s : Schema) : Prop where
  /-- There is a query root, and all roots are different objects. -/
  roots : s.rootsValid = true
  /-- No name begins with two underscores but those of introspection. -/
  names : s.allNamesFree = true
  /-- Arguments of one field or directive have distinct names. -/
  argumentNames : s.allArgumentNamesDistinct = true
  /-- Types have parts, and what is referred to is of a type that it may be of. -/
  parts : s.allPartsValid = true
  /-- Interfaces are implemented. -/
  interfaces : s.allImplement = true
  /-- A type under the name of a scalar of the language is a scalar. -/
  scalars : ∀ n ∈ BuiltIn.scalarNames, ∀ t, s.type? n = some t → t.kind = .scalar
  /-- No input object has to hold one of its own type. -/
  inputObjects : ∀ n, ¬ Relation.TransGen s.Holds n n
  /-- No directive definition leads back to itself. -/
  directives : ∀ n, ¬ Relation.TransGen s.Mentions (.directive n) (.directive n)
  /-- All applications are right. -/
  applications : ∀ p ∈ s.places, s.Right p

section Keeping

variable {s s' : Schema}

/-- The second schema has the definitions of the first. -/
structure Keeps (s s' : Schema) : Prop where
  types : ∀ n t, s.type? n = some t → s'.type? n = some t
  directives : ∀ n d, s.directive? n = some d → s'.directive? n = some d

namespace Keeps

variable (h : s.Keeps s')

include h

theorem allows
    {x : Value}
    {t : TypeRef}
    (allowed : s.Allows x t) :
    s'.Allows x t := by
  induction allowed with
  | null nullable => exact .null nullable
  | language takes => exact .language takes
  | custom defined scalar own given => exact .custom (h.types _ _ defined) scalar own given
  | enum defined value => exact .enum (h.types _ _ defined) value
  | object defined input names _ ih => exact .object (h.types _ _ defined) input names ih
  | list _ ih => exact .list ih
  | single one given _ ih => exact .single one given ih

theorem applies
    {l : Location}
    {a : Directive}
    (applied : s.Applies l a) :
    s'.Applies l a := by
  obtain ⟨d, defined, listed, names, values⟩ := applied
  exact ⟨d, h.directives _ _ defined, listed, names, fun x hx p hp same =>
    h.allows (values x hx p hp same)⟩

end Keeps

/-- A directive that is applied in a right place is defined. -/
theorem Right.mem_keys
    {p : Place}
    (right : s.Right p)
    {a : Directive}
    (ha : a ∈ p.applications) :
    a.name ∈ s.directives.keys := by
  obtain ⟨d, defined, -⟩ := right.each a ha
  exact Table.mem_keys_of_get? defined

/-- What is right stays right where the definitions are kept. -/
theorem Right.keep
    {p : Place}
    (right : s.Right p)
    (h : s.Keeps s') :
    s'.Right p where
  each := fun a ha => h.applies (right.each a ha)
  once := by
    intro n d defined single
    by_cases none : p.count n = 0
    · omega
    · -- A directive that is applied is defined in the first schema, and defined alike.
      obtain ⟨a, ha, named⟩ := List.countP_pos_iff.mp (Nat.pos_of_ne_zero none)
      obtain rfl : a.name = n := beq_iff_eq.mp named
      obtain ⟨e, known, -⟩ := right.each a ha
      obtain rfl : d = e := Option.some_inj.mp (defined.symm.trans (h.directives _ _ known))
      exact right.once _ d known single

/-- One more application may be added that is right and the first of its name. -/
theorem Right.attach
    {p : Place}
    (right : s.Right p)
    {a : Directive}
    (applies : s.Applies p.location a)
    (first : p.count a.name = 0) :
    s.Right (p.attach a) where
  each := by
    intro b hb
    rcases List.mem_append.mp hb with hb | hb
    · exact right.each b hb
    · rw [List.mem_singleton.mp hb]
      exact applies
  once := by
    intro n d defined single
    rw [Place.count_attach]
    by_cases named : a.name = n
    · exact Nat.le_of_eq (by rw [if_pos named, ← named, first])
    · rw [if_neg named]
      exact right.once n d defined single

end Keeping

end Schema
end Supergraph
