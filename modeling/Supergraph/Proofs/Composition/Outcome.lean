import Supergraph.Proofs.Composition.Success
import Supergraph.Proofs.Composition.Wording
import Supergraph.Proofs.Elementwise

/-!
# How a composition ends

A composition checks one thing after the other, and what it answers is decided by the first
check that fails: the recorded configuration, the names of the vocabulary, the scalars of the
language, the templates.  Some checks are made on a schema that earlier steps have changed
already, but no step changes what a later one looks at.  So the answer can be told from the
target, the vocabulary and the templates as they were in the beginning, and the group and the
words of an error with it (`compose_outcome`).
-/

namespace Supergraph

section Templates

/-- The names that templates may refer to types by. -/
def Vocabulary.placeholderNames : List Name :=
  Vocabulary.builtInScalars ++ FusionType.all.map FusionType.baseName

/-- The argument is of a type that no placeholder stands for. -/
inductive ArgumentFault (directive : Name) : InputValue → FusionError → Prop
  | unbound
      {a : InputValue}
      (unknown : a.type.innermost ∉ Vocabulary.placeholderNames) :
      ArgumentFault directive a (.unboundPlaceholder directive a.type.innermost)

/-- No directive of this name can be made of the member. -/
inductive MemberFault (directive : Name) : Member → FusionError → Prop
  | type
      (t : TypeDef) :
      MemberFault directive (.type t) (.notDirective t.kind t.name)
  | argument
      {d : DirectiveDef}
      {e : FusionError}
      (first : FirstFault (ArgumentFault directive) d.arguments e) :
      MemberFault directive (.directive d) e

/-- What is handed over for the template cannot be used for the directive. -/
def TemplateFault
    (v : Vocabulary)
    (templates : Templates)
    (request : TemplateName × FusionDirective) :
    FusionError → Prop :=
  MemberFault (v.directiveName request.2) (templates request.1 request.2)

variable {v : Vocabulary} {directive : Name} {e : FusionError}

theorem Vocabulary.names_placeholders
    (v : Vocabulary) :
    v.placeholders.names = placeholderNames := by
  rw [Placeholders.names, placeholders, List.map_append, List.map_map, List.map_map,
    placeholderNames]
  simp [Function.comp_def]

theorem unbound_iff
    {a : InputValue} :
    v.placeholders.Unbound directive a e ↔ ArgumentFault directive a e := by
  constructor
  · rintro ⟨unknown⟩
    exact .unbound (v.names_placeholders ▸ unknown)
  · rintro ⟨unknown⟩
    exact .unknown (v.names_placeholders.symm ▸ unknown)

theorem instantiate_eq_error_iff
    {m : Member} :
    v.placeholders.instantiate m directive = .error e ↔ MemberFault directive m e := by
  rw [Placeholders.instantiate_eq_error_iff]
  constructor
  · rintro (t | first)
    · exact .type t
    · exact .argument ((FirstFault.congr fun _ _ => unbound_iff).mp first)
  · rintro (t | first)
    · exact .type t
    · exact .argument ((FirstFault.congr fun _ _ => unbound_iff).mpr first)

theorem MemberFault.code_ne
    {m : Member}
    (h : MemberFault directive m e) :
    e.code ≠ .configurationConflict := by
  cases h with
  | type t => nofun
  | argument first =>
      obtain ⟨a, -, ⟨unknown⟩⟩ := first.exists_mem
      nofun

end Templates

namespace Target

variable {f : Target} {v : Vocabulary} {templates : Templates} {e : FusionError}

section Refusals

/-- No other configuration is recorded. -/
def AgreesWith (f : Target) (v : Vocabulary) : Prop :=
  ∀ c, f.config = some c → c = v.config

/-- These are the members under names of the vocabulary that are not marked, each once and in
the order of the vocabulary. -/
structure Collides (f : Target) (v : Vocabulary) (types directives : List Name) : Prop where
  types_sublist : types.Sublist v.typeNames
  directives_sublist : directives.Sublist v.directiveNames
  mem_types_iff : ∀ n, n ∈ types ↔
    n ∈ v.typeNames ∧ n ∈ f.schema.types.keys ∧ f.isMarkedType n = false
  mem_directives_iff : ∀ n, n ∈ directives ↔
    n ∈ v.directiveNames ∧ n ∈ f.schema.directives.keys ∧ f.isMarkedDirective n = false

theorem collides_colliding
    (f : Target)
    (v : Vocabulary) :
    f.Collides v (f.collidingTypes v) (f.collidingDirectives v) where
  types_sublist := List.filter_sublist
  directives_sublist := List.filter_sublist
  mem_types_iff := by
    intro n
    simp [collidingTypes, List.mem_filter, Table.contains_iff]
  mem_directives_iff := by
    intro n
    simp [collidingDirectives, List.mem_filter, Table.contains_iff]

/-- Two parts of a list without repetitions that have the same elements are the same. -/
theorem eq_of_sublist_of_mem_iff
    {α : Type}
    {xs ys zs : List α}
    (distinct : zs.Nodup)
    (hxs : xs.Sublist zs)
    (hys : ys.Sublist zs)
    (same : ∀ a, a ∈ xs ↔ a ∈ ys) :
    xs = ys := by
  have perm : xs.Perm ys :=
    (List.perm_ext_iff_of_nodup (distinct.sublist hxs) (distinct.sublist hys)).mpr same
  induction hxs generalizing ys with
  | slnil => exact (List.nil_perm.mp perm).symm
  | @cons xs zs z hxs ih =>
      rw [List.nodup_cons] at distinct
      have free : z ∉ ys := fun hz => distinct.1 (hxs.subset ((same z).mpr hz))
      rcases hys with _ | ⟨_, hys⟩ | ⟨_, hys⟩
      · exact ih distinct.2 hys same perm
      · exact absurd List.mem_cons_self free
  | @cons_cons xs zs z hxs ih =>
      rw [List.nodup_cons] at distinct
      rcases hys with _ | ⟨_, hys⟩ | ⟨_, hys⟩
      · exact absurd (hys.subset ((same z).mp List.mem_cons_self)) distinct.1
      · rename_i ys
        have perm' := (List.perm_cons z).mp perm
        rw [ih distinct.2 hys (fun a => perm'.mem_iff) perm']

theorem Collides.eq
    {types directives : List Name}
    (h : f.Collides v types directives) :
    types = f.collidingTypes v ∧ directives = f.collidingDirectives v := by
  have other := f.collides_colliding v
  exact ⟨eq_of_sublist_of_mem_iff v.nodup_typeNames h.types_sublist other.types_sublist
      fun n => (h.mem_types_iff n).trans (other.mem_types_iff n).symm,
    eq_of_sublist_of_mem_iff (v.nodup_map_directiveName (by decide)) h.directives_sublist
      other.directives_sublist
      fun n => (h.mem_directives_iff n).trans (other.mem_directives_iff n).symm⟩

theorem Collides.nodup
    {types directives : List Name}
    (h : f.Collides v types directives) :
    types.Nodup ∧ directives.Nodup :=
  ⟨v.nodup_typeNames.sublist h.types_sublist,
    (v.nodup_map_directiveName (by decide)).sublist h.directives_sublist⟩

/-- No name of the vocabulary is taken. -/
abbrev Fits (f : Target) (v : Vocabulary) : Prop :=
  f.Collides v [] []

theorem refusal?_of_other
    {c : Config}
    (recorded : f.config = some c)
    (other : c ≠ v.config) :
    f.refusal? v = some (.configConflict c v.config) := by
  simp only [refusal?, recorded, if_neg other]

theorem refusal?_of_agrees
    {types directives : List Name}
    (agrees : f.AgreesWith v)
    (taken : f.Collides v types directives) :
    f.refusal? v =
      if types = [] ∧ directives = [] then none else some (.nameCollision types directives) := by
  have collision : f.refusal? v = f.collision? v := by
    unfold refusal?
    split
    · rename_i c recorded
      rw [if_pos (agrees c recorded)]
    · rfl
  obtain ⟨rfl, rfl⟩ := taken.eq
  rw [collision]
  simp only [collision?, Bool.and_eq_true, List.isEmpty_iff]

end Refusals

section Scalars

/-- The name is the name of a type that is no scalar. -/
inductive ScalarFault (f : Target) (n : Name) : FusionError → Prop
  | otherKind
      {t : TypeDef}
      (defined : f.schema.type? n = some t)
      (other : t.kind ≠ .scalar) :
      ScalarFault f n (.notScalar n t.kind)

/-- A scalar that was missing is no fault once it is there, and it was none before. -/
theorem scalarFault_addScalar_iff
    {m n : Name}
    (absent : f.schema.type? m = none) :
    (f.addScalar m).ScalarFault n e ↔ f.ScalarFault n e := by
  by_cases same : n = m
  · subst same
    refine iff_of_false ?_ ?_
    · rintro ⟨defined, other⟩
      rw [show (f.addScalar n).schema.type? n = some (.plainScalar n) from
        Table.get?_put_self _ (TypeDef.plainScalar n), Option.some_inj] at defined
      subst defined
      exact other rfl
    · rintro ⟨defined, -⟩
      rw [absent] at defined
      cases defined
  · have elsewhere : (f.addScalar m).schema.type? n = f.schema.type? n :=
      Table.get?_put_of_ne same
    constructor
    · rintro ⟨defined, other⟩
      exact .otherKind (elsewhere ▸ defined) other
    · rintro ⟨defined, other⟩
      exact .otherKind (elsewhere.trans defined) other

theorem ensureScalars_snd_eq_some_iff
    {ns : List Name} :
    (f.ensureScalars ns).2 = some e ↔ FirstFault f.ScalarFault ns e := by
  induction ns generalizing f with
  | nil => exact iff_of_false nofun FirstFault.not_nil
  | cons n ns ih =>
      unfold ensureScalars
      split
      · rename_i t defined
        split
        · rename_i scalar
          rw [FirstFault.cons_iff_of_fine, ih]
          rintro e ⟨defined', other⟩
          rw [defined, Option.some_inj] at defined'
          exact other (defined' ▸ scalar)
        · rename_i other
          have only : ∀ e, f.ScalarFault n e ↔ e = .notScalar n t.kind := by
            intro e
            constructor
            · rintro ⟨defined', -⟩
              rw [defined, Option.some_inj] at defined'
              rw [defined']
            · rintro rfl
              exact .otherKind defined other
          rw [FirstFault.cons_iff_of_fault only, Option.some_inj, eq_comm]
      · rename_i absent
        have faults : (f.addScalar n).ScalarFault = f.ScalarFault := by
          funext m e
          exact propext (scalarFault_addScalar_iff absent)
        rw [FirstFault.cons_iff_of_fine, ih, faults]
        rintro e ⟨defined, -⟩
        rw [absent] at defined
        cases defined

theorem ensureScalars_snd_eq_none_iff
    {ns : List Name} :
    (f.ensureScalars ns).2 = none ↔ ∀ n ∈ ns, ∀ e, ¬ f.ScalarFault n e := by
  rw [← FirstFault.forall_not_iff, Option.eq_none_iff_forall_ne_some]
  exact forall_congr' fun e => not_congr ensureScalars_snd_eq_some_iff

theorem code_of_scalarFault
    {ns : List Name}
    (h : FirstFault f.ScalarFault ns e) :
    e.code = .internal := by
  obtain ⟨n, -, here⟩ := h.exists_mem
  obtain ⟨defined, other⟩ := here
  rfl

end Scalars

section Templated

theorem insertTemplated_snd_eq_some_iff
    {rest : List (TemplateName × FusionDirective)} :
    (insertTemplated v templates f rest).2 = some e ↔
      FirstFault (TemplateFault v templates) rest e := by
  induction rest generalizing f with
  | nil => exact iff_of_false nofun FirstFault.not_nil
  | cons request rest ih =>
      have fault : ∀ e, TemplateFault v templates request e ↔
          v.placeholders.instantiate (templates request.1 request.2)
            (v.directiveName request.2) = .error e :=
        fun e => instantiate_eq_error_iff.symm
      unfold insertTemplated
      split
      · rename_i e₀ failed
        have only : ∀ e, TemplateFault v templates request e ↔ e = e₀ := by
          intro e
          rw [fault, failed, Except.error.injEq, eq_comm]
        rw [FirstFault.cons_iff_of_fault only, Option.some_inj, eq_comm]
      · rename_i d instantiated
        rw [FirstFault.cons_iff_of_fine, ih]
        intro e
        rw [fault, instantiated]
        nofun

theorem insertTemplated_snd_eq_none_iff
    {rest : List (TemplateName × FusionDirective)} :
    (insertTemplated v templates f rest).2 = none ↔
      ∀ request ∈ rest, ∀ e, ¬ TemplateFault v templates request e := by
  rw [← FirstFault.forall_not_iff, Option.eq_none_iff_forall_ne_some]
  exact forall_congr' fun e => not_congr insertTemplated_snd_eq_some_iff

theorem code_ne_of_templateFault
    {rest : List (TemplateName × FusionDirective)}
    (h : FirstFault (TemplateFault v templates) rest e) :
    e.code ≠ .configurationConflict := by
  obtain ⟨request, -, here⟩ := h.exists_mem
  exact here.code_ne

end Templated

section Outcomes

/-- What a composition answers, told from what it starts with. -/
inductive Outcome (f : Target) (v : Vocabulary) (templates : Templates) :
    Except FusionError Registration → Prop
  | otherConfiguration
      {c : Config}
      (recorded : f.config = some c)
      (other : c ≠ v.config) :
      Outcome f v templates (.error (.configConflict c v.config))
  | collision
      {types directives : List Name}
      (agrees : f.AgreesWith v)
      (taken : f.Collides v types directives)
      (some : ¬ (types = [] ∧ directives = [])) :
      Outcome f v templates (.error (.nameCollision types directives))
  | noScalar
      {e : FusionError}
      (agrees : f.AgreesWith v)
      (free : f.Fits v)
      (first : FirstFault f.ScalarFault Vocabulary.builtInScalars e) :
      Outcome f v templates (.error e)
  | template
      {e : FusionError}
      (agrees : f.AgreesWith v)
      (free : f.Fits v)
      (scalars : ∀ n ∈ Vocabulary.builtInScalars, ∀ e, ¬ f.ScalarFault n e)
      (first : FirstFault (TemplateFault v templates) FusionDirective.templated e) :
      Outcome f v templates (.error e)
  | registered
      (agrees : f.AgreesWith v)
      (free : f.Fits v)
      (scalars : ∀ n ∈ Vocabulary.builtInScalars, ∀ e, ¬ f.ScalarFault n e)
      (usable : ∀ request ∈ FusionDirective.templated, ∀ e, ¬ TemplateFault v templates request e) :
      Outcome f v templates (.ok ⟨v, v.placeholders⟩)

theorem compose_snd_of_scalars
    (ahead : f.refusal? v = none)
    (failed : (f.ensureScalars Vocabulary.builtInScalars).2 = some e) :
    (f.compose v templates).2 = .error e := by
  simp only [compose, ahead]
  split
  · rename_i g e' scalars
    rw [scalars, Option.some_inj] at failed
    rw [failed]
  · rename_i g scalars
    rw [scalars] at failed
    cases failed

theorem compose_snd_of_passed
    (ahead : f.refusal? v = none)
    (passed : (f.ensureScalars Vocabulary.builtInScalars).2 = none) :
    (f.compose v templates).2 =
      match (insertTemplated v templates
        (((f.ensureScalars Vocabulary.builtInScalars).1.insertTypes v).insertOwnDirectives v)
        FusionDirective.templated).2 with
      | some e => .error e
      | none => .ok ⟨v, v.placeholders⟩ := by
  simp only [compose, ahead]
  split
  · rename_i g e scalars
    rw [scalars] at passed
    cases passed
  · rename_i g scalars
    rw [scalars]
    split
    · rename_i inserted
      rw [inserted]
    · rename_i inserted
      rw [inserted]

/-- The composition ends in a conflict. -/
def Conflicts (f : Target) (v : Vocabulary) (templates : Templates) : Prop :=
  ∃ e, (f.compose v templates).2 = .error e ∧ e.code = .configurationConflict

theorem code_of_refusal
    (refused : f.refusal? v = some e) :
    e.code = .configurationConflict := by
  have collision : ∀ e, f.collision? v = some e → e.code = .configurationConflict := by
    intro e taken
    unfold collision? at taken
    dsimp only at taken
    split at taken
    · cases taken
    · cases taken
      rfl
  unfold refusal? at refused
  split at refused
  · split at refused
    · exact collision e refused
    · cases refused
      rfl
  · exact collision e refused

/-- Nothing that goes wrong later on is a conflict. -/
theorem code_ne_of_ahead
    (ahead : f.refusal? v = none)
    (failed : (f.compose v templates).2 = .error e) :
    e.code ≠ .configurationConflict := by
  cases scalars : (f.ensureScalars Vocabulary.builtInScalars).2 with
  | some e₀ =>
      rw [compose_snd_of_scalars ahead scalars] at failed
      cases failed
      rw [code_of_scalarFault (ensureScalars_snd_eq_some_iff.mp scalars)]
      nofun
  | none =>
      rw [compose_snd_of_passed ahead scalars] at failed
      split at failed
      · rename_i e₀ inserted
        cases failed
        exact code_ne_of_templateFault (insertTemplated_snd_eq_some_iff.mp inserted)
      · cases failed

/-- A composition ends in a conflict just if it is refused. -/
theorem conflicts_iff_refused :
    f.Conflicts v templates ↔ f.refusal? v ≠ none := by
  constructor
  · rintro ⟨e, failed, conflict⟩ ahead
    exact code_ne_of_ahead ahead failed conflict
  · intro refused
    obtain ⟨e, refused⟩ := Option.ne_none_iff_exists'.mp refused
    exact ⟨e, by rw [compose_of_refusal templates refused], code_of_refusal refused⟩

theorem compose_snd_of_outcome
    {o : Except FusionError Registration}
    (h : f.Outcome v templates o) :
    (f.compose v templates).2 = o := by
  cases h with
  | otherConfiguration recorded other =>
      rw [compose_of_refusal templates (refusal?_of_other recorded other)]
  | collision agrees taken some =>
      rw [compose_of_refusal templates ((refusal?_of_agrees agrees taken).trans (if_neg some))]
  | noScalar agrees free first =>
      exact compose_snd_of_scalars (refusal?_of_agrees agrees free)
        (ensureScalars_snd_eq_some_iff.mpr first)
  | template agrees free scalars first =>
      rw [compose_snd_of_passed (refusal?_of_agrees agrees free)
        (ensureScalars_snd_eq_none_iff.mpr scalars), insertTemplated_snd_eq_some_iff.mpr first]
  | registered agrees free scalars usable =>
      rw [compose_snd_of_passed (refusal?_of_agrees agrees free)
        (ensureScalars_snd_eq_none_iff.mpr scalars), insertTemplated_snd_eq_none_iff.mpr usable]

/-- There is an outcome in every case. -/
theorem exists_outcome
    (f : Target)
    (v : Vocabulary)
    (templates : Templates) :
    ∃ o, f.Outcome v templates o := by
  by_cases agrees : f.AgreesWith v
  · by_cases free : f.Fits v
    · cases scalars : (f.ensureScalars Vocabulary.builtInScalars).2 with
      | some e => exact ⟨_, .noScalar agrees free (ensureScalars_snd_eq_some_iff.mp scalars)⟩
      | none =>
          have passed := ensureScalars_snd_eq_none_iff.mp scalars
          cases inserted : (insertTemplated v templates f FusionDirective.templated).2 with
          | some e =>
              exact ⟨_, .template agrees free passed (insertTemplated_snd_eq_some_iff.mp inserted)⟩
          | none =>
              exact ⟨_, .registered agrees free passed
                (insertTemplated_snd_eq_none_iff.mp inserted)⟩
    · have taken := f.collides_colliding v
      refine ⟨_, .collision agrees taken ?_⟩
      rintro ⟨types, directives⟩
      rw [types, directives] at taken
      exact free taken
  · simp only [AgreesWith, not_forall] at agrees
    obtain ⟨c, recorded, other⟩ := agrees
    exact ⟨_, .otherConfiguration recorded other⟩

/-- The errors that a composition ends in are of their groups and have their words. -/
theorem worded_of_outcome
    (h : f.Outcome v templates (.error e)) :
    e.Worded e.code e.message := by
  cases h with
  | @otherConfiguration c => exact FusionError.worded_configConflict c v.config
  | collision agrees taken some => exact FusionError.worded_nameCollision some
  | noScalar agrees free first =>
      obtain ⟨n, -, ⟨defined, other⟩⟩ := first.exists_mem
      exact FusionError.worded_notScalar n _
  | template agrees free scalars first =>
      obtain ⟨request, -, fault⟩ := first.exists_mem
      unfold TemplateFault at fault
      generalize templates request.1 request.2 = template at fault
      cases fault with
      | type t => exact FusionError.worded_notDirective t.kind t.name
      | argument first =>
          obtain ⟨a, -, ⟨unknown⟩⟩ := first.exists_mem
          exact FusionError.worded_unboundPlaceholder _ a.type.innermost

/-- **The answer of a composition is determined by what it starts with.**  It is the one
`Outcome` there is: the first of the faults, in their order, or success.  An error is of the
group and has the words that belong to it.  With an answer of the group of conflicts the target
is as before.  A collision is reported with every name once, and its message is that of no
other collision. -/
theorem compose_outcome
    (f : Target)
    (v : Vocabulary)
    (templates : Templates) :
    (∀ o, (f.compose v templates).2 = o ↔ f.Outcome v templates o) ∧
      (∀ e, (f.compose v templates).2 = .error e → e.Worded e.code e.message) ∧
      (∀ e, (f.compose v templates).2 = .error e → e.code = .configurationConflict →
        (f.compose v templates).1 = f) ∧
      ∀ types directives,
        (f.compose v templates).2 = .error (.nameCollision types directives) →
          (types.Nodup ∧ directives.Nodup) ∧
            ∀ types' directives' code,
              (FusionError.nameCollision types' directives').Worded code
                  (FusionError.nameCollision types directives).message →
                types' = types ∧ directives' = directives := by
  have determined : ∀ o, (f.compose v templates).2 = o ↔ f.Outcome v templates o := by
    refine fun o => ⟨?_, compose_snd_of_outcome⟩
    rintro rfl
    obtain ⟨o, h⟩ := exists_outcome f v templates
    rwa [compose_snd_of_outcome h]
  have worded : ∀ e, (f.compose v templates).2 = .error e → e.Worded e.code e.message :=
    fun e answered => worded_of_outcome ((determined _).mp answered)
  refine ⟨determined, worded, ?_, ?_⟩
  · intro e answered conflict
    cases (determined _).mp answered with
    | otherConfiguration recorded other =>
        rw [compose_of_refusal templates (refusal?_of_other recorded other)]
    | collision agrees taken some =>
        rw [compose_of_refusal templates ((refusal?_of_agrees agrees taken).trans (if_neg some))]
    | noScalar agrees free first =>
        rw [code_of_scalarFault first] at conflict
        cases conflict
    | template agrees free scalars first =>
        exact absurd conflict (code_ne_of_templateFault first)
  · intro types directives answered
    refine ⟨?_, fun types' directives' code said =>
      FusionError.eq_of_worded_collision said (worded _ answered)⟩
    cases (determined _).mp answered with
    | collision agrees taken some => exact taken.nodup
    | noScalar agrees free first => cases code_of_scalarFault first
    | template agrees free scalars first => exact absurd rfl (code_ne_of_templateFault first)

/-- An author's scalar takes the name of a type of the vocabulary, and the message says so. -/
theorem compose_takenName_outcome :
    (ofSchema takenName).Outcome .bare .builtIn
        (.error (.nameCollision [FusionType.typeName.baseName] [])) ∧
      (FusionError.nameCollision [FusionType.typeName.baseName] []).Worded
        .configurationConflict
        ("Schema defines type \"TypeName\" which collide with fusion names, "
          ++ "compose with a prefix to avoid the collision") := by
  have answered : ((ofSchema takenName).compose .bare .builtIn).2 =
      .error (.nameCollision [FusionType.typeName.baseName] []) := by
    decide +kernel
  have message : (FusionError.nameCollision [FusionType.typeName.baseName] []).message =
      "Schema defines type \"TypeName\" which collide with fusion names, "
        ++ "compose with a prefix to avoid the collision" := by
    decide +kernel
  have outcome := compose_outcome (ofSchema takenName) .bare .builtIn
  exact ⟨(outcome.1 _).mp answered, message ▸ outcome.2.1 _ answered⟩

end Outcomes

end Target
end Supergraph
