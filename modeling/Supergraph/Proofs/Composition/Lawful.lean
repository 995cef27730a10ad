import Supergraph.Proofs.Composition.Validity
import Supergraph.Proofs.Validity.Soundness

/-!
# Composing keeps schemas valid

By the rules of the specification, a composition that succeeds leaves a valid schema valid
(`lawful_compose`).  What was there is kept as it was, and so are the reasons why it is right.
What is new mentions types of the vocabulary and scalars of the language, and holds scalars.
Nothing that was there mentions anything new: a schema in which all applications are right
applies defined directives only, and the names of the vocabulary were free.  So a chain of
definitions that leads back to where it began does not come by anything new, and was there
before.
-/

namespace Supergraph

section Chains

variable {α : Type} {r r' : α → α → Prop}

/-- New steps from which there is no way on close no cycle. -/
theorem acyclic_of_ends
    (new : ∀ a b, r' a b → r a b ∨ ∀ c, ¬ r' b c)
    (acyclic : ∀ a, ¬ Relation.TransGen r a a)
    (a : α) :
    ¬ Relation.TransGen r' a a := by
  have old : ∀ {b}, Relation.TransGen r' a b → (∃ c, r' b c) → Relation.TransGen r a b := by
    intro b chain
    induction chain with
    | single step =>
        rintro ⟨c, further⟩
        exact .single ((new _ _ step).resolve_right fun none => none c further)
    | tail _ step ih =>
        rintro ⟨c, further⟩
        exact .tail (ih ⟨_, step⟩) ((new _ _ step).resolve_right fun none => none c further)
  intro cycle
  obtain ⟨c, first, -⟩ := Relation.TransGen.head'_iff.mp cycle
  exact acyclic a (old cycle ⟨c, first⟩)

/-- Chains from a part that is never left, and in which all steps are old, are old. -/
theorem transGen_of_closed
    {P : α → Prop}
    (closed : ∀ a b, P a → r' a b → r a b ∧ P b)
    {a b : α}
    (start : P a)
    (chain : Relation.TransGen r' a b) :
    Relation.TransGen r a b := by
  have both : Relation.TransGen r a b ∧ P b := by
    induction chain with
    | single step =>
        obtain ⟨old, inside⟩ := closed _ _ start step
        exact ⟨.single old, inside⟩
    | tail _ step ih =>
        obtain ⟨old, inside⟩ := closed _ _ ih.2 step
        exact ⟨.tail ih.1 old, inside⟩
  exact both.1

end Chains

namespace Schema

variable {s : Schema} {r r' : Referent}

section Mentioned

/-- The definition is in the schema, or it is a scalar of the language. -/
def Has (s : Schema) : Referent → Prop
  | .directive n => n ∈ s.directives.keys
  | .type n => n ∈ s.types.keys ∨ n ∈ BuiltIn.scalarNames

theorem has_of_applied
    (right : ∀ p ∈ s.places, s.Right p)
    {p : Place}
    (hp : p ∈ s.places)
    (applied : r ∈ applicationMentions p.applications) :
    s.Has r := by
  obtain ⟨a, ha, rfl⟩ := mem_applicationMentions_iff.mp applied
  exact (right p hp).mem_keys ha

theorem has_of_referred
    (parts : s.allPartsValid = true)
    {n : Name}
    (referred : n ∈ s.referredTypes) :
    s.Has (.type n) := by
  cases defined : s.type? n with
  | some t => exact Or.inl (Table.mem_keys_of_get? defined)
  | none => exact Or.inr (mem_scalarNames_of_referred parts referred defined)

/-- What is mentioned in a schema in which all applications are right is there. -/
theorem has_of_mentions
    (parts : s.allPartsValid = true)
    (right : ∀ p ∈ s.places, s.Right p)
    (h : s.Mentions r r') :
    s.Has r' := by
  cases h with
  | directive defined mentioned =>
      have hd := (Table.get?_eq_some_iff.mp defined).1
      obtain ⟨v, hv, rfl | applied⟩ := mem_inputMentions_iff.mp mentioned
      · exact has_of_referred parts (mem_referredTypes_of_directive hd hv)
      · exact has_of_applied right (place_of_directive hd hv) applied
  | type defined mentioned =>
      have ht := (Table.get?_eq_some_iff.mp defined).1
      rcases mem_typeMentions_iff.mp mentioned with applied | ⟨v, hv, applied⟩ | mentioned
      · exact has_of_applied right (place_of_type ht mem_typePlaces_self) applied
      · exact has_of_applied right (place_of_type ht (mem_typePlaces_value hv)) applied
      · obtain ⟨v, hv, rfl | applied⟩ := mem_inputMentions_iff.mp mentioned
        · exact has_of_referred parts (mem_referredTypes_of_inputField ht hv)
        · exact has_of_applied right (place_of_type ht (mem_typePlaces_inputField hv)) applied

end Mentioned

section ModestTypes

/-- Arguments and input fields that nothing is applied to mention nothing but types. -/
theorem exists_type_of_inputMentions
    {vs : List InputValue}
    (unapplied : ∀ v ∈ vs, v.directives = [])
    (h : r ∈ inputMentions vs) :
    ∃ n, r = .type n := by
  obtain ⟨v, hv, rfl | applied⟩ := mem_inputMentions_iff.mp h
  · exact ⟨_, rfl⟩
  · rw [unapplied v hv] at applied
    cases applied

/-- So does a modest type. -/
theorem exists_type_of_modest
    {t : TypeDef}
    (modest : s.Modest t)
    (h : r ∈ typeMentions t) :
    ∃ n, r = .type n := by
  rcases mem_typeMentions_iff.mp h with applied | ⟨v, hv, applied⟩ | mentioned
  · rw [modest.applications] at applied
    cases applied
  · rw [modest.onValues v hv] at applied
    cases applied
  · exact exists_type_of_inputMentions modest.onInputFields mentioned

/-- Nothing is applied in the places of a modest type. -/
theorem applications_of_modest
    {t : TypeDef}
    (modest : s.Modest t)
    {p : Place}
    (hp : p ∈ typePlaces t) :
    p.applications = [] := by
  rw [typePlaces, modest.fields] at hp
  simp only [List.flatMap_nil, List.nil_append, List.cons_append, List.mem_cons, List.mem_append,
    List.mem_map] at hp
  rcases hp with rfl | ⟨v, hv, rfl⟩ | ⟨v, hv, rfl⟩
  · exact modest.applications
  · exact modest.onValues v hv
  · exact modest.onInputFields v hv

/-- What a modest type holds, holds nothing. -/
theorem not_holds_of_modest
    {t : TypeDef}
    (defined : s.type? t.name = some t)
    (modest : s.Modest t)
    {m : Name}
    (holds : s.Holds t.name m)
    (k : Name) :
    ¬ s.Holds m k := by
  rintro ⟨u, known, v, hv, -⟩
  have input : s.isInputObject m = true := by
    simp [isInputObject, known, kind_of_mem_inputFields hv]
  obtain ⟨t', found, x, hx, type⟩ := holds
  obtain rfl : t = t' := Option.some_inj.mp (defined.symm.trans found)
  have held : m ∈ s.heldBy t.name := by
    simp only [heldBy, defined]
    refine List.mem_filter.mpr ⟨List.mem_filterMap.mpr ⟨x, hx, ?_⟩, input⟩
    simp only [alwaysHolds, type]
  rw [modest.holds] at held
  cases held

end ModestTypes

end Schema

/-- The definition is under a name of the vocabulary. -/
def Vocabulary.Names (w : Vocabulary) : Schema.Referent → Prop
  | .directive n => n ∈ w.directiveNames
  | .type n => n ∈ w.typeNames

namespace Target

section Composing

variable {s : Schema} {w : Vocabulary} {g : Target} {r : Registration}
  (unrecorded : (ofSchema s).config = none)
  (free : ∀ n ∈ w.typeNames ++ w.directiveNames, n.isReserved = false)
  (h : (ofSchema s).compose w .builtIn = (g, .ok r))

include unrecorded h

section Chains

/-- What was there is not under a name of the vocabulary. -/
theorem not_names_of_has
    {x : Schema.Referent}
    (has : s.Has x) :
    ¬ w.Names x := by
  cases x with
  | directive n => exact not_mem_directiveNames_of_compose unrecorded h has
  | type n =>
      rcases has with known | language
      · exact not_mem_typeNames_of_compose unrecorded h known
      · exact Vocabulary.not_mem_typeNames_of_scalar language

include free

/-- What is mentioned in a composed schema was mentioned before, or it is a type that the
vocabulary mentions. -/
theorem mentions_of_compose
    {x y : Schema.Referent}
    (mentions : g.schema.Mentions x y) :
    s.Mentions x y ∨ w.Names x ∧ ∃ n, y = .type n := by
  cases mentions with
  | @directive n d _ defined mentioned =>
      obtain ⟨hd, rfl⟩ := Table.get?_eq_some_iff.mp defined
      rcases directive_origin unrecorded h hd with old | plain
      · exact Or.inl (.directive (Table.get?_key old) mentioned)
      · exact Or.inr ⟨plain.named,
          Schema.exists_type_of_inputMentions plain.unapplied mentioned⟩
  | @type n t _ defined mentioned =>
      rcases type?_origin unrecorded h defined with old | ⟨-, rfl⟩ | ⟨k, rfl, rfl⟩
      · exact Or.inl (.type old mentioned)
      · cases mentioned
      · have modest := (composed_of_compose h).modest_typeDef k
          (free _ (List.mem_append_left _ (w.typeName_mem k)))
        exact Or.inr ⟨w.typeName_mem k, Schema.exists_type_of_modest modest mentioned⟩

/-- No directive definition leads back to itself in a composed schema if none did before. -/
theorem not_mentions_of_compose
    (parts : s.allPartsValid = true)
    (right : ∀ p ∈ s.places, s.Right p)
    (acyclic : ∀ n, ¬ Relation.TransGen s.Mentions (.directive n) (.directive n))
    (n : Name) :
    ¬ Relation.TransGen g.schema.Mentions (.directive n) (.directive n) := by
  have old : ∀ {x y}, s.Mentions x y → ¬ w.Names y := fun mentions =>
    not_names_of_has unrecorded h (Schema.has_of_mentions parts right mentions)
  intro cycle
  by_cases own : n ∈ w.directiveNames
  · -- Nothing leads to a directive of the vocabulary.
    obtain ⟨x, -, last⟩ := Relation.TransGen.tail'_iff.mp cycle
    rcases mentions_of_compose unrecorded free h last with before | ⟨-, m, type⟩
    · exact old before own
    · cases type
  · refine acyclic n (transGen_of_closed (P := fun x => ¬ w.Names x) ?_ own cycle)
    intro x y outside mentions
    rcases mentions_of_compose unrecorded free h mentions with before | ⟨inside, -⟩
    · exact ⟨before, old before⟩
    · exact absurd inside outside

/-- No input object has to hold one of its own type if none had to before. -/
theorem not_holds_of_compose
    (acyclic : ∀ n, ¬ Relation.TransGen s.Holds n n)
    (n : Name) :
    ¬ Relation.TransGen g.schema.Holds n n := by
  refine acyclic_of_ends ?_ acyclic n
  rintro a b ⟨t, defined, v, hv, type⟩
  obtain ⟨ht, rfl⟩ := Table.get?_eq_some_iff.mp defined
  rcases mem_types_of_compose unrecorded free h ht with old | modest
  · exact Or.inl ⟨t, old, v, hv, type⟩
  · exact Or.inr (Schema.not_holds_of_modest defined modest ⟨t, defined, v, hv, type⟩)

end Chains

section Applications

theorem keeps_compose : s.Keeps g.schema where
  types := fun _ _ => type?_compose unrecorded h
  directives := fun _ _ => directive?_compose unrecorded h

omit unrecorded in
/-- The record of the configuration is right on the schema. -/
theorem applies_rootApplication :
    g.schema.Applies .schema w.rootApplication := by
  have composed := composed_of_compose h
  have fits := composed.fits_rootApplication
  exact ⟨w.rootDef, composed.ownDirectives w.rootDef (by simp [Vocabulary.ownDirectives]),
    List.mem_singleton.mpr rfl, Schema.gives_of_covers fits.names,
    fun x hx p hp same => (fits.values x hx p hp same).allows⟩

include free

/-- All applications are right in a composed schema if they were before. -/
theorem right_compose
    (right : ∀ p ∈ s.places, s.Right p) :
    ∀ p ∈ g.schema.places, g.schema.Right p := by
  have keeps := keeps_compose unrecorded h
  have empty : ∀ p : Place, p.applications = [] → g.schema.Right p := by
    rintro ⟨l, -⟩ rfl
    exact ⟨List.forall_mem_nil _, fun _ _ _ _ => Nat.zero_le 1⟩
  intro p hp
  rcases List.mem_append.mp hp with hp | hp
  · rcases List.mem_cons.mp hp with rfl | hp
    · have before := right ⟨.schema, s.definition.applications⟩
        (List.mem_append_left _ List.mem_cons_self)
      obtain ⟨applications, other⟩ :=
        applications_compose unrecorded h fun a ha => before.mem_keys ha
      rw [applications]
      refine (before.keep keeps).attach (applies_rootApplication h) ?_
      exact List.countP_eq_zero.mpr fun a ha named => other a ha (beq_iff_eq.mp named)
    · obtain ⟨d, hd, hp⟩ := List.mem_flatMap.mp hp
      obtain ⟨v, hv, rfl⟩ := List.mem_map.mp hp
      rcases directive_origin unrecorded h hd with old | plain
      · exact (right _ (Schema.place_of_directive old hv)).keep keeps
      · exact empty _ (plain.unapplied v hv)
  · obtain ⟨t, ht, hp⟩ := List.mem_flatMap.mp hp
    rcases mem_types_of_compose unrecorded free h ht with old | modest
    · exact (right p (Schema.place_of_type (Table.get?_eq_some_iff.mp old).1 hp)).keep keeps
    · exact empty p (Schema.applications_of_modest modest hp)

end Applications

include free

/-- **Composition preserves validity.**  A composition that succeeds on a valid schema without a
record, with no name of the vocabulary reserved, leaves a valid schema. -/
theorem lawful_compose
    (lawful : s.Lawful) :
    g.schema.Lawful := by
  have carries := carries_compose unrecorded free h
  refine
    { roots := carries.rootsValid lawful.roots
      names := carries.allNamesFree lawful.names
      argumentNames := carries.allArgumentNamesDistinct lawful.argumentNames
      parts := carries.allPartsValid lawful.parts
      interfaces := carries.allImplement lawful.interfaces
      scalars := ?_
      inputObjects := not_holds_of_compose unrecorded free h lawful.inputObjects
      directives :=
        not_mentions_of_compose unrecorded free h lawful.parts lawful.applications lawful.directives
      applications := right_compose unrecorded free h lawful.applications }
  intro n language t defined
  rcases type?_origin unrecorded h defined with old | ⟨-, rfl⟩ | ⟨k, rfl, -⟩
  · exact lawful.scalars n language t old
  · rfl
  · exact absurd (w.typeName_mem k) (Vocabulary.not_mem_typeNames_of_scalar language)

end Composing

section Samples

/-- A directive of an author's own, for scalars. -/
def noteDef : DirectiveDef where
  description := none
  name := ⟨"note", by decide⟩
  arguments := [InputValue.plain ⟨"level", by decide⟩ (.named BuiltIn.int false)]
  repeatable := false
  locations := [.scalar]
  builtIn := false

/-- An application of it. -/
def noteApplication : Directive where
  name := noteDef.name
  arguments := [⟨⟨"level", by decide⟩, .int Vocabulary.formatVersion⟩]

/-- A schema with one field, in which an extension of `String` has a note. -/
def notedString : Schema :=
  ((oneField BuiltIn.string).put (.directive noteDef)).put
    (.type { BuiltIn.scalar BuiltIn.string with directives := [⟨.extension 0, noteApplication⟩] })

/-- The note is right, and it is the only application. -/
theorem right_notedString :
    ∀ p ∈ notedString.places, notedString.Right p := by
  have places : ∀ p ∈ notedString.places,
      p.applications = [] ∨ p = ⟨.scalar, [noteApplication]⟩ := by
    decide +kernel
  have level : notedString.Allows (.int Vocabulary.formatVersion) (.named BuiltIn.int false) :=
    .language (by decide)
  have applies : notedString.Applies .scalar noteApplication := by
    refine ⟨noteDef, rfl, List.mem_singleton.mpr rfl, ⟨by decide, by decide, by decide⟩, ?_⟩
    exact List.forall_mem_singleton.mpr (List.forall_mem_singleton.mpr fun _ => level)
  intro p hp
  rcases places p hp with none | rfl
  · refine ⟨fun a ha => ?_, fun n d _ _ => ?_⟩
    · rw [none] at ha
      cases ha
    · rw [Place.count, none]
      exact Nat.zero_le 1
  · exact ⟨List.forall_mem_singleton.mpr applies, fun n d _ _ => List.countP_le_length⟩

/-- The schema with a note on `String` stays valid, though directives of the vocabulary refer to
this scalar. -/
theorem notedString_stays_lawful :
    (ofSchema notedString).config = none ∧
      (∀ n ∈ Vocabulary.bare.typeNames ++ Vocabulary.bare.directiveNames,
        n.isReserved = false) ∧
      (ofSchema notedString).compose .bare .builtIn =
        (composedBare notedString, .ok ⟨.bare, Vocabulary.bare.placeholders⟩) ∧
      notedString.Lawful ∧ (composedBare notedString).schema.Lawful := by
  have composed : (ofSchema notedString).compose .bare .builtIn =
      (composedBare notedString, .ok ⟨.bare, Vocabulary.bare.placeholders⟩) :=
    Prod.ext rfl rfl
  have lawful : notedString.Lawful :=
    Schema.lawful_of_isValid (by decide +kernel) (by decide) (by decide) right_notedString
  exact ⟨rfl, by decide, composed, lawful, lawful_compose rfl (by decide) composed lawful⟩

end Samples

end Target
end Supergraph
