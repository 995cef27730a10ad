import Supergraph.Proofs.Target
import Supergraph.Proofs.Template
import Mathlib.Logic.Relation

/-!
# A composition is a sequence of edits

Whatever becomes of a composition, it either was refused and changed nothing, or
it reached its target by single edits (`compose_edits`): a missing scalar of the
language is added, a type or directive under a name of the vocabulary is inserted
and marked, the root directive is applied, the configuration is recorded.  It does
not matter for this whether the composition succeeded or where it failed.

What every edit preserves, every composition preserves.
-/

namespace Supergraph

namespace Vocabulary

@[simp] theorem name_typeDef
    (v : Vocabulary)
    (t : FusionType) :
    (v.typeDef t).name = v.typeName t := by
  cases t <;> rfl

theorem isInput_typeDef
    (v : Vocabulary)
    (t : FusionType) :
    (v.typeDef t).isInput = true := by
  cases t <;> rfl

theorem exists_name_of_mem_ownDirectives
    {v : Vocabulary}
    {d : DirectiveDef}
    (h : d ∈ v.ownDirectives) :
    ∃ k, d.name = v.directiveName k := by
  simp only [ownDirectives, List.mem_cons, List.not_mem_nil, or_false] at h
  rcases h with rfl | rfl | rfl | rfl | rfl
  exacts [⟨.privateMark, rfl⟩, ⟨.resolver, rfl⟩, ⟨.variableBinding, rfl⟩, ⟨.node, rfl⟩,
    ⟨.root, rfl⟩]

end Vocabulary

namespace Target

/-- A single change that composing with a vocabulary can make. -/
inductive Edit (v : Vocabulary) : Target → Target → Prop
  | addScalar
      {f : Target}
      {n : Name}
      (language : n ∈ Vocabulary.builtInScalars)
      (absent : f.schema.type? n = none) :
      Edit v f (f.addScalar n)
  | insertType
      {f : Target}
      (t : FusionType) :
      Edit v f (f.insertType (v.typeDef t))
  | insertDirective
      {f : Target}
      {k : FusionDirective}
      {d : DirectiveDef}
      (named : d.name = v.directiveName k) :
      Edit v f (f.insertDirective d)
  | applyRoot
      {f : Target}
      (marked : f.isMarkedDirective (v.directiveName .root) = true) :
      Edit v f (f.replaceApplication v.rootApplication)
  | record
      {f : Target} :
      Edit v f { f with config := some v.config }

/-- Any number of edits, one after the other. -/
abbrev Edits (v : Vocabulary) : Target → Target → Prop :=
  Relation.ReflTransGen (Edit v)

section Stages

variable {v : Vocabulary}

theorem ensureScalars_edits
    (f : Target)
    {ns : List Name}
    (h : ∀ n ∈ ns, n ∈ Vocabulary.builtInScalars) :
    Edits v f (f.ensureScalars ns).1 := by
  induction ns generalizing f with
  | nil => exact .refl
  | cons n ns ih =>
      have ih' := fun g => ih g (fun m hm => h m (List.mem_cons_of_mem n hm))
      unfold ensureScalars
      split
      · split
        · exact ih' f
        · exact .refl
      · rename_i absent
        exact .head (.addScalar (h n List.mem_cons_self) absent) (ih' _)

theorem insertTypes_edits
    (f : Target) :
    Edits v f (f.insertTypes v) := by
  have run : ∀ (ts : List FusionType) (f : Target),
      Edits v f ((ts.map v.typeDef).foldl insertType f) := by
    intro ts
    induction ts with
    | nil => exact fun _ => .refl
    | cons t ts ih => exact fun f => .head (.insertType t) (ih _)
  exact run FusionType.all f

theorem insertOwnDirectives_edits
    (f : Target) :
    Edits v f (f.insertOwnDirectives v) := by
  have run : ∀ (ds : List DirectiveDef) (f : Target),
      (∀ d ∈ ds, ∃ k, d.name = v.directiveName k) →
        Edits v f (ds.foldl insertDirective f) := by
    intro ds
    induction ds with
    | nil => exact fun _ _ => .refl
    | cons d ds ih =>
        intro f h
        obtain ⟨k, hk⟩ := h d List.mem_cons_self
        exact .head (.insertDirective hk) (ih _ (fun e he => h e (List.mem_cons_of_mem d he)))
  refine .tail (run v.ownDirectives f (fun d => v.exists_name_of_mem_ownDirectives)) ?_
  refine .applyRoot (isMarkedDirective_foldl_insertDirective.mpr (Or.inl ?_))
  exact List.mem_map.mpr ⟨v.rootDef, by simp [Vocabulary.ownDirectives], rfl⟩

theorem insertTemplated_edits
    (templates : Templates)
    (f : Target)
    (rest : List (TemplateName × FusionDirective)) :
    Edits v f (insertTemplated v templates f rest).1 := by
  induction rest generalizing f with
  | nil => exact .refl
  | cons td rest ih =>
      obtain ⟨t, k⟩ := td
      unfold insertTemplated
      split
      · exact .refl
      · rename_i d hd
        exact .head (.insertDirective (Placeholders.name_of_instantiate hd)) (ih _)

end Stages

section Composition

variable {f : Target} {v : Vocabulary} (templates : Templates)

theorem compose_of_refusal
    {e : FusionError}
    (h : f.refusal? v = some e) :
    f.compose v templates = (f, .error e) := by
  simp only [compose, h]

/-- A composition that is not refused makes edits. -/
theorem compose_edits
    (h : f.refusal? v = none) :
    Edits v f (f.compose v templates).1 := by
  have scalars := ensureScalars_edits (v := v) f (fun n hn => hn)
  simp only [compose, h]
  split
  · rename_i g e hg
    rw [hg] at scalars
    exact scalars
  · rename_i g hg
    rw [hg] at scalars
    have inserted := insertTemplated_edits (v := v) templates
      ((g.insertTypes v).insertOwnDirectives v) FusionDirective.templated
    have upToHere := (scalars.trans (insertTypes_edits g)).trans (insertOwnDirectives_edits _)
    split
    · rename_i k e hk
      rw [hk] at inserted
      exact upToHere.trans inserted
    · rename_i k hk
      rw [hk] at inserted
      exact (upToHere.trans inserted).tail .record

/-- What every edit preserves, a composition preserves. -/
theorem compose_induction
    (P : Target → Prop)
    (start : P f)
    (step : f.refusal? v = none → ∀ g k, P g → Edit v g k → P k) :
    P (f.compose v templates).1 := by
  cases h : f.refusal? v with
  | some e =>
      rw [compose_of_refusal templates h]
      exact start
  | none =>
      have edits := compose_edits templates h
      generalize (f.compose v templates).1 = g at edits ⊢
      induction edits with
      | refl => exact start
      | tail _ edit ih => exact step h _ _ ih edit

end Composition

section Runs

/-- Compositions one after the other, whatever becomes of each of them. -/
def composeAll (f : Target) (runs : List (Vocabulary × Templates)) : Target :=
  runs.foldl (fun f r => (f.compose r.1 r.2).1) f

/-- What every composition preserves, a run of them preserves. -/
theorem composeAll_induction
    (P : Target → Prop)
    {f : Target}
    (start : P f)
    (step : ∀ g v templates, P g → P (g.compose v templates).1)
    (runs : List (Vocabulary × Templates)) :
    P (f.composeAll runs) := by
  induction runs generalizing f with
  | nil => exact start
  | cons r runs ih => exact ih (step f r.1 r.2 start)

end Runs

end Target

end Supergraph
