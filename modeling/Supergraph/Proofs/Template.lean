import Supergraph.Fusion.Template
import Supergraph.Proofs.Elementwise
import Supergraph.Proofs.Vocabulary

/-!
# Instantiation is substitution

A template can be instantiated just if it is a directive definition whose arguments refer to
placeholders only; otherwise the first argument that does not is named.  The instance has the
new name and the registered types, and is else as the template is (`Placeholders.Instance`).
An instance that is instantiated again is what the composed placeholders make of the template
at once.

`Placeholders.instantiate_is_substitution` puts this together.
-/

namespace Supergraph

namespace TypeRef

/-- A reference is made up of its wrapping and the name within. -/
theorem eq_of_wrapping
    {t u : TypeRef}
    (wrapping : t.wrapping = u.wrapping)
    (innermost : t.innermost = u.innermost) :
    t = u := by
  have nonempty : ∀ t : TypeRef, t.wrapping ≠ [] := by
    intro t
    cases t <;> exact List.cons_ne_nil _ _
  induction t generalizing u with
  | named n b =>
      cases u with
      | named m c =>
          obtain ⟨rfl, -⟩ := List.cons.inj wrapping
          obtain rfl : n = m := innermost
          rfl
      | list u c => exact absurd (List.cons.inj wrapping).2.symm (nonempty u)
  | list t b ih =>
      cases u with
      | named m c => exact absurd (List.cons.inj wrapping).2 (nonempty t)
      | list u c =>
          obtain ⟨rfl, inside⟩ := List.cons.inj wrapping
          rw [ih inside innermost]

theorem mapInnermost?_eq_none_iff
    {f : Name → Option Name}
    {t : TypeRef} :
    t.mapInnermost? f = none ↔ f t.innermost = none := by
  induction t with
  | named n b => simp [mapInnermost?, innermost]
  | list t b ih => simp [mapInnermost?, innermost, ih]

theorem mapInnermost?_eq_some_iff
    {f : Name → Option Name}
    {t u : TypeRef} :
    t.mapInnermost? f = some u ↔
      u.wrapping = t.wrapping ∧ f t.innermost = some u.innermost := by
  constructor
  · intro h
    exact ⟨wrapping_of_mapInnermost? h, innermost_of_mapInnermost? h⟩
  · rintro ⟨wrapping, bound⟩
    cases mapped : t.mapInnermost? f with
    | none =>
        rw [mapInnermost?_eq_none_iff, bound] at mapped
        cases mapped
    | some v =>
        have same := innermost_of_mapInnermost? mapped
        rw [bound, Option.some.injEq] at same
        rw [eq_of_wrapping (wrapping.trans (wrapping_of_mapInnermost? mapped).symm) same]

end TypeRef

namespace Placeholders

section Names

/-- The names that types are referred to by. -/
def names (p : Placeholders) : List Name :=
  p.entries.map Prod.fst

/-- Whatever is registered for one of these is a placeholder of the others. -/
def Feeds (p q : Placeholders) : Prop :=
  ∀ n m, p.lookup? n = some m → m ∈ q.names

/-- The placeholders of the first, each for what the second registers for its type. -/
def compose (p q : Placeholders) : Placeholders where
  entries := p.entries.filterMap (fun e => (q.lookup? e.2).map (fun m => (e.1, m)))

variable {p q : Placeholders} {n m : Name}

theorem lookup?_eq_none_iff :
    p.lookup? n = none ↔ n ∉ p.names := by
  rw [lookup?, Option.map_eq_none_iff, List.find?_eq_none, names, List.mem_map]
  simp only [beq_iff_eq]
  constructor
  · rintro none ⟨entry, mem, rfl⟩
    exact none entry mem rfl
  · rintro none entry mem rfl
    exact none ⟨entry, mem, rfl⟩

theorem mem_names_iff :
    n ∈ p.names ↔ ∃ m, p.lookup? n = some m := by
  rw [← not_iff_not, ← lookup?_eq_none_iff, ← Option.ne_none_iff_exists', not_not]

theorem lookup?_cons
    (k : Name)
    (es : List (Name × Name)) :
    lookup? ⟨(k, m) :: es⟩ n = if k = n then some m else lookup? ⟨es⟩ n := by
  by_cases same : k = n <;> simp [lookup?, same]

/-- Entries that are never found may be dropped, but not the one that is found. -/
theorem lookup?_compose
    (h : ∀ m, p.lookup? n = some m → m ∈ q.names) :
    (p.compose q).lookup? n = (p.lookup? n).bind q.lookup? := by
  obtain ⟨entries⟩ := p
  induction entries with
  | nil => rfl
  | cons e es ih =>
      obtain ⟨k, m⟩ := e
      rw [lookup?_cons] at h ⊢
      by_cases same : k = n
      · rw [if_pos same] at h ⊢
        obtain ⟨l, registered⟩ := mem_names_iff.mp (h m rfl)
        simp [compose, registered, lookup?_cons, same]
      · rw [if_neg same] at h ⊢
        rw [← ih h]
        cases registered : q.lookup? m with
        | none => simp [compose, registered]
        | some l => simp [compose, registered, lookup?_cons, same]

theorem feeds_of_entries
    (h : ∀ e ∈ p.entries, e.2 ∈ q.names) :
    p.Feeds q := by
  intro n m found
  obtain ⟨e, entry, rfl⟩ := Option.map_eq_some_iff.mp found
  exact h e (List.mem_of_find?_eq_some entry)

end Names

section Instances

/-- The argument `b` is the argument `a` with the registered type in the place of the
placeholder. -/
structure Binds (p : Placeholders) (a b : InputValue) : Prop where
  name : b.name = a.name
  description : b.description = a.description
  default : b.default = a.default
  directives : b.directives = a.directives
  wrapping : b.type.wrapping = a.type.wrapping
  innermost : p.lookup? a.type.innermost = some b.type.innermost

/-- The directive `e` is the template `d` under a new name, with registered types in the place
of placeholders. -/
structure Instance (p : Placeholders) (n : Name) (d e : DirectiveDef) : Prop where
  name : e.name = n
  arguments : List.Forall₂ p.Binds d.arguments e.arguments
  description : e.description = d.description
  locations : e.locations = d.locations
  repeatable : e.repeatable = d.repeatable
  builtIn : e.builtIn = d.builtIn

/-- No placeholder stands for the type that the argument refers to. -/
inductive Unbound (p : Placeholders) (n : Name) : InputValue → FusionError → Prop
  | unknown
      {a : InputValue}
      (unknown : a.type.innermost ∉ p.names) :
      Unbound p n a (.unboundPlaceholder n a.type.innermost)

/-- No directive of this name can be made of the member: it is a type, or this is the fault of
its first argument with one. -/
inductive Refuses (p : Placeholders) (n : Name) : Member → FusionError → Prop
  | type
      (t : TypeDef) :
      Refuses p n (.type t) (.notDirective t.kind t.name)
  | argument
      {d : DirectiveDef}
      {e : FusionError}
      (first : FirstFault (p.Unbound n) d.arguments e) :
      Refuses p n (.directive d) e

variable {p q : Placeholders} {n : Name}

theorem instantiateArgument_eq_ok_iff
    {a b : InputValue} :
    p.instantiateArgument n a = .ok b ↔ p.Binds a b := by
  unfold instantiateArgument
  split
  · rename_i t mapped
    obtain ⟨wrapping, bound⟩ := TypeRef.mapInnermost?_eq_some_iff.mp mapped
    constructor
    · rintro ⟨⟩
      exact ⟨rfl, rfl, rfl, rfl, wrapping, bound⟩
    · rintro ⟨name, description, default, directives, wrapping', bound'⟩
      rw [TypeRef.mapInnermost?_eq_some_iff.mpr ⟨wrapping', bound'⟩, Option.some.injEq] at mapped
      obtain ⟨_, _, _, _, _⟩ := b
      subst name description default directives mapped
      rfl
  · rename_i unmapped
    refine iff_of_false nofun fun h => ?_
    rw [TypeRef.mapInnermost?_eq_none_iff, h.innermost] at unmapped
    cases unmapped

theorem instantiateArgument_eq_error_iff
    {a : InputValue}
    {e : FusionError} :
    p.instantiateArgument n a = .error e ↔ p.Unbound n a e := by
  unfold instantiateArgument
  split
  · rename_i t mapped
    refine iff_of_false nofun ?_
    rintro ⟨unknown⟩
    rw [← lookup?_eq_none_iff, ← TypeRef.mapInnermost?_eq_none_iff, mapped] at unknown
    cases unknown
  · rename_i unmapped
    rw [TypeRef.mapInnermost?_eq_none_iff, lookup?_eq_none_iff] at unmapped
    constructor
    · rintro ⟨⟩
      exact .unknown unmapped
    · rintro ⟨-⟩
      rfl

/-- The instances of all arguments come in the same order. -/
theorem instantiateArguments_eq_ok_iff
    {as bs : List InputValue} :
    p.instantiateArguments n as = .ok bs ↔ List.Forall₂ p.Binds as bs := by
  induction as generalizing bs with
  | nil =>
      rw [List.forall₂_nil_left_iff]
      exact (Except.ok.injEq _ _).to_iff.trans eq_comm
  | cons a as ih =>
      unfold instantiateArguments
      rw [List.forall₂_cons_left_iff]
      simp only [← instantiateArgument_eq_ok_iff (n := n), ← ih]
      split
      · rename_i e failed
        simp [failed]
      · rename_i b made
        split
        · rename_i e failed
          simp [failed]
        · rename_i bs' rest
          simp [made, rest, eq_comm]

theorem instantiateArguments_eq_error_iff
    {as : List InputValue}
    {e : FusionError} :
    p.instantiateArguments n as = .error e ↔ FirstFault (p.Unbound n) as e := by
  induction as with
  | nil => exact iff_of_false nofun FirstFault.not_nil
  | cons a as ih =>
      have first : ∀ e, p.instantiateArgument n a = .error e ↔ p.Unbound n a e :=
        fun e => instantiateArgument_eq_error_iff
      unfold instantiateArguments
      split
      · rename_i e₀ failed
        simp only [failed, Except.error.injEq] at first
        rw [FirstFault.cons_iff_of_fault fun e => (first e).symm.trans eq_comm]
        exact (Except.error.injEq _ _).to_iff.trans eq_comm
      · rename_i b made
        simp only [made, reduceCtorEq, false_iff] at first
        rw [FirstFault.cons_iff_of_fine first, ← ih]
        split <;> simp [*]

theorem instantiate_directive_eq_ok_iff
    {d e : DirectiveDef} :
    p.instantiate (.directive d) n = .ok e ↔ p.Instance n d e := by
  unfold instantiate
  constructor
  · intro h
    dsimp only at h
    split at h
    · cases h
    · rename_i as made
      cases h
      exact ⟨rfl, instantiateArguments_eq_ok_iff.mp made, rfl, rfl, rfl, rfl⟩
  · rintro ⟨name, arguments, description, locations, repeatable, builtIn⟩
    obtain ⟨_, _, _, _, _, _⟩ := e
    subst name description locations repeatable builtIn
    simp only [instantiateArguments_eq_ok_iff.mpr arguments]

/-- What can be made of a member, and when. -/
theorem instantiate_eq_ok_iff
    {template : Member}
    {e : DirectiveDef} :
    p.instantiate template n = .ok e ↔ ∃ d, template = .directive d ∧ p.Instance n d e := by
  cases template with
  | type t => exact iff_of_false nofun nofun
  | directive d => simp [instantiate_directive_eq_ok_iff]

/-- A template is given the name that was asked for. -/
theorem name_of_instantiate
    {template : Member}
    {e : DirectiveDef}
    (h : p.instantiate template n = .ok e) :
    e.name = n := by
  obtain ⟨_, -, made⟩ := instantiate_eq_ok_iff.mp h
  exact made.name

theorem instantiate_eq_error_iff
    {template : Member}
    {e : FusionError} :
    p.instantiate template n = .error e ↔ p.Refuses n template e := by
  cases template with
  | type t =>
      constructor
      · rintro ⟨⟩
        exact .type t
      · rintro ⟨⟩
        rfl
  | directive d =>
      have refused : p.Refuses n (.directive d) e ↔ FirstFault (p.Unbound n) d.arguments e :=
        ⟨fun | .argument first => first, .argument⟩
      rw [refused, ← instantiateArguments_eq_error_iff, instantiate]
      split <;> simp [*]

end Instances

section Success

variable {p q : Placeholders} {n : Name}

theorem forall_not_unbound_iff
    {a : InputValue} :
    (∀ e, ¬ p.Unbound n a e) ↔ a.type.innermost ∈ p.names := by
  constructor
  · intro fine
    exact not_not.mp fun unknown => fine _ (.unknown unknown)
  · rintro known e ⟨unknown⟩
    exact unknown known

/-- When something can be made of a member. -/
theorem exists_instantiate_iff
    {template : Member} :
    (∃ e, p.instantiate template n = .ok e) ↔
      ∃ d, template = .directive d ∧ ∀ a ∈ d.arguments, a.type.innermost ∈ p.names := by
  have succeeds : (∃ e, p.instantiate template n = .ok e) ↔ ∀ e, ¬ p.Refuses n template e := by
    simp only [← instantiate_eq_error_iff]
    cases p.instantiate template n <;> simp
  rw [succeeds]
  cases template with
  | type t => exact iff_of_false (fun fine => fine _ (.type t)) nofun
  | directive d =>
      simp only [Member.directive.injEq, exists_eq_left', ← forall_not_unbound_iff (n := n),
        ← FirstFault.forall_not_iff]
      exact forall_congr' fun e => not_congr ⟨fun | .argument first => first, .argument⟩

end Success

section Composition

variable {p q : Placeholders} {n m : Name}

theorem Binds.comp
    {a b c : InputValue}
    (hp : p.Binds a b)
    (hq : q.Binds b c) :
    (p.compose q).Binds a c where
  name := hq.name.trans hp.name
  description := hq.description.trans hp.description
  default := hq.default.trans hp.default
  directives := hq.directives.trans hp.directives
  wrapping := hq.wrapping.trans hp.wrapping
  innermost := by
    have known : ∀ m, p.lookup? a.type.innermost = some m → m ∈ q.names := by
      intro m found
      rw [hp.innermost, Option.some.injEq] at found
      exact mem_names_iff.mpr ⟨_, found ▸ hq.innermost⟩
    rw [lookup?_compose known, hp.innermost]
    exact hq.innermost

theorem Instance.comp
    {c d e : DirectiveDef}
    (hp : p.Instance n c d)
    (hq : q.Instance m d e) :
    (p.compose q).Instance m c e where
  name := hq.name
  arguments := forall₂_comp (fun _ _ _ ha hb => ha.comp hb) hp.arguments hq.arguments
  description := hq.description.trans hp.description
  locations := hq.locations.trans hp.locations
  repeatable := hq.repeatable.trans hp.repeatable
  builtIn := hq.builtIn.trans hp.builtIn

/-- The types of an instance are placeholders again. -/
theorem Instance.feeds
    {d e : DirectiveDef}
    (h : p.Instance n d e)
    (feeds : p.Feeds q) :
    ∀ b ∈ e.arguments, b.type.innermost ∈ q.names := by
  intro b hb
  obtain ⟨a, -, bound⟩ := exists_of_mem_forall₂ h.arguments hb
  exact feeds _ _ bound.innermost

theorem instantiate_instance
    {template : Member}
    {d : DirectiveDef}
    (feeds : p.Feeds q)
    (made : p.instantiate template n = .ok d) :
    ∃ e, q.instantiate (.directive d) m = .ok e ∧ (p.compose q).instantiate template m = .ok e := by
  obtain ⟨c, rfl, first⟩ := instantiate_eq_ok_iff.mp made
  obtain ⟨e, again⟩ := exists_instantiate_iff.mpr ⟨d, rfl, first.feeds feeds⟩
  have second := instantiate_directive_eq_ok_iff.mp again
  exact ⟨e, again, instantiate_directive_eq_ok_iff.mpr (first.comp second)⟩

end Composition

section Refusals

variable {p : Placeholders} {n : Name} {x : FusionError}

theorem code_of_refuses_type
    {t : TypeDef}
    (h : p.Refuses n (.type t) x) :
    x.code = .notSupported := by
  cases h
  rfl

/-- The first argument that cannot be bound, and what is said about it. -/
structure FirstUnbound
    (p : Placeholders)
    (n : Name)
    (d : DirectiveDef)
    (before : List InputValue)
    (a : InputValue)
    (after : List InputValue) : Prop where
  split : d.arguments = before ++ a :: after
  bound : ∀ b ∈ before, b.type.innermost ∈ p.names
  unbound : a.type.innermost ∉ p.names

theorem exists_firstUnbound
    {d : DirectiveDef}
    (h : p.Refuses n (.directive d) x) :
    ∃ before a after, p.FirstUnbound n d before a after ∧
      x = .unboundPlaceholder n a.type.innermost := by
  obtain - | first := h
  obtain ⟨before, a, after, split, fine, ⟨unknown⟩⟩ := first.exists_split
  exact ⟨before, a, after,
    ⟨split, fun b hb => forall_not_unbound_iff.mp (fine b hb), unknown⟩, rfl⟩

theorem message_unboundPlaceholder
    (n m : Name) :
    (FusionError.unboundPlaceholder n m).message = FusionError.internalMessage
      ("Directive template \"@" ++ n.text ++ "\" references type \"" ++ m.text ++
        "\" which is not registered in this composition") := by
  have opening : "Directive template \"@" = "Directive template " ++ ("\"" ++ "@") := by decide
  have middle : "\" references type \"" = "\"" ++ (" references type " ++ "\"") := by decide
  have closing : "\" which is not registered in this composition" =
      "\"" ++ " which is not registered in this composition" := by decide
  refine congrArg FusionError.internalMessage ?_
  simp only [FusionError.inQuotes, opening, middle, closing, String.append_assoc]

end Refusals

/-- **Instantiation is substitution.**  Instances are made of just the directive definitions
whose arguments refer to placeholders only.  An instance differs from its template in the name,
and in the names of types within the types of arguments.  A type is not supported; of another
member the first argument that refers to no placeholder is reported, by its type and the name
of the directive.  What other placeholders make of the instance, the composed placeholders make
of the template. -/
theorem instantiate_is_substitution
    (p : Placeholders)
    (template : Member)
    (n : Name) :
    ((∃ e, p.instantiate template n = .ok e) ↔
        ∃ d, template = .directive d ∧ ∀ a ∈ d.arguments, a.type.innermost ∈ p.names) ∧
      (∀ e, p.instantiate template n = .ok e ↔
        ∃ d, template = .directive d ∧ p.Instance n d e) ∧
      (∀ t x, template = .type t → p.instantiate template n = .error x →
        x.code = .notSupported) ∧
      (∀ d x, template = .directive d → p.instantiate template n = .error x →
        x.code = .internal ∧ ∃ before a after, p.FirstUnbound n d before a after ∧
          x.message = FusionError.internalMessage
            ("Directive template \"@" ++ n.text ++ "\" references type \"" ++
              a.type.innermost.text ++ "\" which is not registered in this composition")) ∧
      ∀ q, p.Feeds q →
        (∀ k, (p.compose q).lookup? k = (p.lookup? k).bind q.lookup?) ∧
          ∀ m e, p.instantiate template n = .ok e →
            ∃ e', q.instantiate (.directive e) m = .ok e' ∧
              (p.compose q).instantiate template m = .ok e' := by
  refine ⟨exists_instantiate_iff, fun e => instantiate_eq_ok_iff, ?_, ?_, fun q feeds => ?_⟩
  · rintro t x rfl failed
    exact code_of_refuses_type (instantiate_eq_error_iff.mp failed)
  · rintro d x rfl failed
    obtain ⟨before, a, after, first, rfl⟩ :=
      exists_firstUnbound (instantiate_eq_error_iff.mp failed)
    exact ⟨rfl, before, a, after, first, message_unboundPlaceholder n _⟩
  · exact ⟨fun k => lookup?_compose (feeds k), fun m e made => instantiate_instance feeds made⟩

section Samples

/-- A template with a documented list of lists and with a flag that has a default and an
application. -/
def documentedLists : DirectiveDef where
  description := some "Lists names."
  name := ⟨"lists", by decide⟩
  arguments :=
    [ { InputValue.plain ⟨"names", by decide⟩
          (.list (.list (Templates.placeholder .typeName true) false) true) with
        description := some "The names, by groups." },
      { InputValue.plain ⟨"strict", by decide⟩ (.named BuiltIn.boolean false) with
        default := some (.boolean true)
        directives := [⟨⟨"flag", by decide⟩, []⟩] } ]
  repeatable := true
  locations := [.object, .schema]
  builtIn := false

/-- An instance without a prefix is made an instance with one, and the lists are kept. -/
theorem instantiate_again_underP :
    Vocabulary.bare.placeholders.Feeds Vocabulary.underP.placeholders ∧
      ∃ d e,
        Vocabulary.bare.placeholders.instantiate (.directive documentedLists)
            documentedLists.name = .ok d ∧
          Vocabulary.underP.placeholders.instantiate (.directive d) ⟨"p_lists", by decide⟩ =
            .ok e ∧
          e.arguments.map InputValue.type =
            [ .list (.list (Vocabulary.underP.required .typeName) false) true,
              .named BuiltIn.boolean false ] := by
  have feeds : Vocabulary.bare.placeholders.Feeds Vocabulary.underP.placeholders :=
    feeds_of_entries (by decide)
  obtain ⟨d, made⟩ :=
    (instantiate_is_substitution Vocabulary.bare.placeholders (.directive documentedLists)
      documentedLists.name).1.mpr ⟨documentedLists, rfl, by decide⟩
  obtain ⟨e, again, once⟩ :=
    ((instantiate_is_substitution Vocabulary.bare.placeholders (.directive documentedLists)
      documentedLists.name).2.2.2.2 _ feeds).2 ⟨"p_lists", by decide⟩ d made
  refine ⟨feeds, d, e, made, again, ?_⟩
  cases once
  rfl

end Samples

end Placeholders

end Supergraph
