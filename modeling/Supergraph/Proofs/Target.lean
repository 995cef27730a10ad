import Supergraph.Fusion.Compose
import Supergraph.Fusion.Recovery
import Supergraph.Proofs.Table

/-!
# What the steps of a composition change

Each step that composition takes on a target changes one table of the schema and
the marks that belong to it, or the applications on the schema definition.  The
lemmas here say what is read from the target after the step; the proofs about
whole compositions use them and do not open the steps.
-/

namespace Supergraph

@[simp] theorem key_name
    (n : Name) :
    key n = n :=
  rfl

@[simp] theorem key_typeDef
    (t : TypeDef) :
    key t = t.name :=
  rfl

@[simp] theorem key_directiveDef
    (d : DirectiveDef) :
    key d = d.name :=
  rfl

namespace Schema

section WithTypes

variable (s : Schema) (types : Table TypeDef)

@[simp] theorem types_withTypes :
    (s.withTypes types).types = types :=
  rfl

@[simp] theorem directives_withTypes :
    (s.withTypes types).directives = s.directives :=
  rfl

@[simp] theorem definition_withTypes :
    (s.withTypes types).definition = s.definition :=
  rfl

end WithTypes

/-- As long as no type is taken out, the introspection types keep their places. -/
theorem introspection_withTypes
    {s : Schema}
    {types : Table TypeDef}
    (h : ∀ n ∈ s.types.keys, n ∈ types.keys) :
    (s.withTypes types).introspection = s.introspection := by
  refine List.filter_eq_self.mpr ?_
  intro n hn
  exact (types.contains_iff n).mpr (h n (s.introspection_sub n hn))

theorem withTypes_types
    (s : Schema) :
    s.withTypes s.types = s :=
  Schema.ext rfl rfl rfl (introspection_withTypes (fun _ h => h))

end Schema

namespace Target

variable {f : Target}

section Marks

theorem isMarkedType_iff
    {n : Name} :
    f.isMarkedType n = true ↔ n ∈ f.markedTypes.keys :=
  f.markedTypes.contains_iff n

theorem isMarkedDirective_iff
    {n : Name} :
    f.isMarkedDirective n = true ↔ n ∈ f.markedDirectives.keys :=
  f.markedDirectives.contains_iff n

@[simp] theorem isMarkedType_insertType
    {t : TypeDef}
    {n : Name} :
    (f.insertType t).isMarkedType n = true ↔ n = t.name ∨ f.isMarkedType n = true := by
  simp [isMarkedType_iff, insertType]

@[simp] theorem isMarkedDirective_insertType
    (t : TypeDef) :
    (f.insertType t).isMarkedDirective = f.isMarkedDirective :=
  rfl

@[simp] theorem isMarkedType_insertDirective
    (d : DirectiveDef) :
    (f.insertDirective d).isMarkedType = f.isMarkedType :=
  rfl

@[simp] theorem isMarkedDirective_insertDirective
    {d : DirectiveDef}
    {n : Name} :
    (f.insertDirective d).isMarkedDirective n = true ↔
      n = d.name ∨ f.isMarkedDirective n = true := by
  simp [isMarkedDirective_iff, insertDirective]

@[simp] theorem isMarkedType_addScalar
    (n : Name) :
    (f.addScalar n).isMarkedType = f.isMarkedType :=
  rfl

@[simp] theorem isMarkedDirective_addScalar
    (n : Name) :
    (f.addScalar n).isMarkedDirective = f.isMarkedDirective :=
  rfl

@[simp] theorem isMarkedType_replaceApplication
    (d : Directive) :
    (f.replaceApplication d).isMarkedType = f.isMarkedType :=
  rfl

@[simp] theorem isMarkedDirective_replaceApplication
    (d : Directive) :
    (f.replaceApplication d).isMarkedDirective = f.isMarkedDirective :=
  rfl

end Marks

section Members

@[simp] theorem types_insertType
    (t : TypeDef) :
    (f.insertType t).schema.types = f.schema.types.put t :=
  rfl

@[simp] theorem directives_insertType
    (t : TypeDef) :
    (f.insertType t).schema.directives = f.schema.directives :=
  rfl

@[simp] theorem types_insertDirective
    (d : DirectiveDef) :
    (f.insertDirective d).schema.types = f.schema.types :=
  rfl

@[simp] theorem directives_insertDirective
    (d : DirectiveDef) :
    (f.insertDirective d).schema.directives = f.schema.directives.put d :=
  rfl

@[simp] theorem types_addScalar
    (n : Name) :
    (f.addScalar n).schema.types = f.schema.types.put (.plainScalar n) :=
  rfl

@[simp] theorem directives_addScalar
    (n : Name) :
    (f.addScalar n).schema.directives = f.schema.directives :=
  rfl

@[simp] theorem types_replaceApplication
    (d : Directive) :
    (f.replaceApplication d).schema.types = f.schema.types :=
  rfl

@[simp] theorem directives_replaceApplication
    (d : Directive) :
    (f.replaceApplication d).schema.directives = f.schema.directives :=
  rfl

@[simp] theorem introspection_insertType
    (t : TypeDef) :
    (f.insertType t).schema.introspection = f.schema.introspection :=
  Schema.introspection_withTypes (fun _ h => Table.mem_keys_put.mpr (Or.inr h))

@[simp] theorem introspection_addScalar
    (n : Name) :
    (f.addScalar n).schema.introspection = f.schema.introspection :=
  Schema.introspection_withTypes (fun _ h => Table.mem_keys_put.mpr (Or.inr h))

end Members

section Folds

/-- What no single step changes, all of them together do not change. -/
theorem apply_foldl_eq
    {α β γ : Type}
    (step : α → β → α)
    (read : α → γ)
    (h : ∀ a b, read (step a b) = read a)
    (bs : List β)
    (a : α) :
    read (bs.foldl step a) = read a := by
  induction bs generalizing a with
  | nil => rfl
  | cons b bs ih => rw [List.foldl_cons, ih, h]

theorem types_foldl_insertType
    (ts : List TypeDef)
    (f : Target) :
    (ts.foldl insertType f).schema.types = ts.foldl Table.put f.schema.types := by
  induction ts generalizing f with
  | nil => rfl
  | cons t ts ih => rw [List.foldl_cons, ih, types_insertType, List.foldl_cons]

theorem directives_foldl_insertDirective
    (ds : List DirectiveDef)
    (f : Target) :
    (ds.foldl insertDirective f).schema.directives = ds.foldl Table.put f.schema.directives := by
  induction ds generalizing f with
  | nil => rfl
  | cons d ds ih => rw [List.foldl_cons, ih, directives_insertDirective, List.foldl_cons]

theorem isMarkedType_foldl_insertType
    {ts : List TypeDef}
    {n : Name} :
    (ts.foldl insertType f).isMarkedType n = true ↔
      n ∈ ts.map TypeDef.name ∨ f.isMarkedType n = true := by
  induction ts generalizing f with
  | nil => simp
  | cons t ts ih =>
      rw [List.foldl_cons, ih, isMarkedType_insertType, List.map_cons, List.mem_cons]
      tauto

theorem isMarkedDirective_foldl_insertDirective
    {ds : List DirectiveDef}
    {n : Name} :
    (ds.foldl insertDirective f).isMarkedDirective n = true ↔
      n ∈ ds.map DirectiveDef.name ∨ f.isMarkedDirective n = true := by
  induction ds generalizing f with
  | nil => simp
  | cons d ds ih =>
      rw [List.foldl_cons, ih, isMarkedDirective_insertDirective, List.map_cons, List.mem_cons]
      tauto

end Folds

section Recovered

@[simp] theorem schema_recover
    (f : Target)
    (v : Vocabulary) :
    (f.recover v).schema = f.schema := by
  show (List.foldl markDirective (List.foldl markType f _) _).schema = f.schema
  rw [apply_foldl_eq markDirective schema (fun _ _ => rfl),
    apply_foldl_eq markType schema (fun _ _ => rfl)]

@[simp] theorem schema_ofSchema
    (s : Schema) :
    (ofSchema s).schema = s := by
  unfold ofSchema
  split
  · exact schema_recover _ _
  · rfl

end Recovered

section Refusals

theorem collision?_eq_none_iff
    {v : Vocabulary} :
    f.collision? v = none ↔
      (∀ n ∈ v.typeNames, n ∈ f.schema.types.keys → f.isMarkedType n = true) ∧
        ∀ n ∈ v.directiveNames, n ∈ f.schema.directives.keys → f.isMarkedDirective n = true := by
  have none_iff :
      f.collision? v = none ↔ f.collidingTypes v = [] ∧ f.collidingDirectives v = [] := by
    simp [collision?, List.isEmpty_iff]
  rw [none_iff, collidingTypes, collidingDirectives, List.filter_eq_nil_iff,
    List.filter_eq_nil_iff]
  simp only [Bool.and_eq_true, Bool.not_eq_true', Table.contains_iff, not_and,
    Bool.not_eq_false]

/-- A composition goes ahead if no other configuration is recorded and every member
under a name of the vocabulary is marked. -/
theorem refusal?_eq_none_iff
    {v : Vocabulary} :
    f.refusal? v = none ↔
      (∀ c, f.config = some c → c = v.config) ∧
        (∀ n ∈ v.typeNames, n ∈ f.schema.types.keys → f.isMarkedType n = true) ∧
        ∀ n ∈ v.directiveNames, n ∈ f.schema.directives.keys → f.isMarkedDirective n = true := by
  rw [← collision?_eq_none_iff]
  unfold refusal?
  cases hc : f.config with
  | none => simp
  | some c =>
      by_cases hcv : c = v.config
      · simp [hcv]
      · simp [hcv]

end Refusals

section Samples

/-- A schema in which an author's scalar has a name that compositions without a prefix
would give a type of their own. -/
def takenName : Schema :=
  BuiltIn.schema.put (.type (.plainScalar FusionType.typeName.baseName))

/-- Templates of which one is a type. -/
def brokenTemplates : Templates :=
  Templates.builtIn.set .remove (.type (.plainScalar FusionType.typeName.baseName))

end Samples

end Target

end Supergraph
