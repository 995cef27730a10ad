import Supergraph.Proofs.Schema.Arrangement

/-!
# What a settled schema is read as

An arranged schema that was settled and written is read as almost the same schema
(`ReadBack`).  The parts of types come back regrouped, and so do the applications on the
schema; scalars of the language that nothing refers to come back as they are in the
beginning, without what had been applied to them.
-/

namespace Supergraph
namespace Schema

variable {s s' : Schema} {t u : TypeDef}

/-- A scalar of the language that nothing refers to. -/
def Spare (s : Schema) (t : TypeDef) : Prop :=
  t.isBuiltInScalar = true ∧ t.name ∉ s.referredTypes

/-- What a type is read as after it was settled and written. -/
inductive TypeReadBack (s : Schema) (t u : TypeDef) : Prop where
  | regrouped
      (kept : ¬ s.Spare t)
      (parts : t.Regrouped (Origin.renumber t.extensions) t.extensions u)
  | renewed
      (spare : s.Spare t)
      (language : t.name ∈ BuiltIn.scalarNames)
      (plain : u = BuiltIn.scalar t.name)

/-- The second schema is what the first is read as after it was settled and written. -/
structure ReadBack (s s' : Schema) : Prop where
  types : List.Forall₂ (TypeReadBack s) s.types.items s'.types.items
  directives : s'.directives = s.directives
  definition : s.definition.Regrouped
    (Origin.renumber s.definition.extensions) s.definition.extensions s'.definition
  introspection : ∀ n ∈ BuiltIn.introspectionNames, n ∈ s'.introspection

section Settling

/-- A schema that has all scalars of the language is settled by taking out the spare ones. -/
theorem items_settle
    (scalars : ∀ n ∈ BuiltIn.scalarNames, n ∈ s.types.keys) :
    s.settle.types.items =
      s.types.items.filter fun t => !t.isBuiltInScalar || s.referredTypes.contains t.name := by
  have none : BuiltIn.scalarNames.filter
      (fun n => s.referredTypes.contains n && !s.types.contains n) = [] := by
    refine List.filter_eq_nil_iff.mpr fun n hn => ?_
    simp [(Table.contains_iff _ _).mpr (scalars n hn)]
  simp only [settle, none]
  rfl

theorem stays_iff
    (s : Schema)
    (t : TypeDef) :
    (!t.isBuiltInScalar || s.referredTypes.contains t.name) = true ↔ ¬ s.Spare t := by
  rw [Spare]
  cases t.isBuiltInScalar <;> simp

theorem mem_settle_iff
    (scalars : ∀ n ∈ BuiltIn.scalarNames, n ∈ s.types.keys) :
    t ∈ s.settle.types.items ↔ t ∈ s.types.items ∧ ¬ s.Spare t := by
  rw [items_settle scalars, List.mem_filter, s.stays_iff]

/-- Nothing is written about a spare scalar after it was taken out. -/
theorem not_mem_keys_settle
    (scalars : ∀ n ∈ BuiltIn.scalarNames, n ∈ s.types.keys)
    (ht : t ∈ s.types.items)
    (spare : s.Spare t) :
    t.name ∉ s.settle.types.keys := by
  intro mem
  obtain ⟨u, hu, named⟩ := Table.mem_keys_iff.mp mem
  obtain ⟨hu, kept⟩ := (mem_settle_iff scalars).mp hu
  obtain rfl : u = t := List.inj_on_of_nodup_map s.types.nodup hu ht named
  exact kept spare

end Settling

section Types

theorem regrouped_extensions
    {start : TypeDef}
    (begun : t.Regrouped (Origin.renumber t.extensions) [] start)
    (extended : start.extendAll 0 (t.extensions.map t.fromOrigin) = .ok u) :
    t.Regrouped (Origin.renumber t.extensions) t.extensions u :=
  begun.extendAll rfl (Origin.nodup_extensions _)
    (fun _ ho => (Origin.mem_extensions_iff.mp ho).2) extended

/-- A type that comes with its definition. -/
theorem regrouped_of_assembleType
    (ht : t ∈ s.types.items)
    (own : t.builtIn = false)
    (assembled : assembleType s.toDefinitions (t.fromOrigin .definition) = .ok u) :
    t.Regrouped (Origin.renumber t.extensions) t.extensions u := by
  rw [assembleType, extensionsAround_toDefinitions ht own] at assembled
  cases started : TypeDef.ofText (t.fromOrigin .definition) with
  | error e => rw [started] at assembled; cases assembled
  | ok start =>
      rw [started] at assembled
      refine regrouped_extensions ?_ assembled
      unfold TypeDef.ofText at started
      obtain ⟨body, contents, rfl⟩ := TypeDef.add_eq_ok started
      rw [TypeDef.kind_contents_fromOrigin] at contents
      exact ⟨rfl, rfl, own.symm, .of_definition rfl, TypeBody.regrouped_of_definition contents⟩

/-- A built-in type that comes with its extensions alone. -/
theorem regrouped_of_grown
    {b : TypeDef}
    (grown : b.Grown t)
    (plain : b.directives = [])
    (definition : ∀ o ∈ b.body.origins, o = .definition)
    (builtIn : b.builtIn = true)
    (extended : b.extendAll 0 (t.extensions.map t.fromOrigin) = .ok u) :
    t.Regrouped (Origin.renumber t.extensions) t.extensions u := by
  have same := grown.definition.symm
  refine regrouped_extensions ⟨congrArg TypeText.description same, congrArg TypeText.name same,
    builtIn.trans grown.builtIn.symm, .start (by simp [plain]) (congrArg TypeText.directives same),
    TypeBody.regrouped_start definition (congrArg TypeText.contents same)⟩ extended

theorem forall₂_of_common
    {α β γ : Type}
    {R : α → β → Prop}
    {R' : α → γ → Prop}
    {Q : β → γ → Prop}
    {xs : List α}
    {ys : List β}
    {zs : List γ}
    (first : List.Forall₂ R xs ys)
    (second : List.Forall₂ R' xs zs)
    (both : ∀ x ∈ xs, ∀ y ∈ ys, ∀ z, R x y → R' x z → Q y z) :
    List.Forall₂ Q ys zs := by
  induction first generalizing zs with
  | nil =>
      cases second
      exact .nil
  | cons hxy _ ih =>
      cases second with
      | cons hxz rest =>
          refine .cons (both _ List.mem_cons_self _ List.mem_cons_self _ hxy hxz) (ih rest ?_)
          exact fun x hx y hy => both x (List.mem_cons_of_mem _ hx) y (List.mem_cons_of_mem _ hy)

theorem plain_builtIn :
    ∀ b ∈ BuiltIn.types.items, b.directives = [] ∧
      (∀ o ∈ b.body.origins, o = .definition) ∧
      (b.kind = .scalar → b.name ∈ BuiltIn.scalarNames ∧ b = BuiltIn.scalar b.name) := by
  decide +kernel

theorem typeReadBack_of_grown
    (scalars : ∀ n ∈ BuiltIn.scalarNames, n ∈ s.types.keys)
    {b : TypeDef}
    (hb : b ∈ BuiltIn.types.items)
    (ht : t ∈ s.types.items)
    (grown : b.Grown t)
    (extended :
      b.extendAll 0 (SystemDefinition.extensionsOf b.name s.settle.toDefinitions) = .ok u) :
    s.TypeReadBack t u := by
  obtain ⟨plain, definition, scalar⟩ := plain_builtIn b hb
  rw [← grown.name] at extended
  by_cases spare : s.Spare t
  · rw [extensionsOf_toDefinitions_of_not_mem (not_mem_keys_settle scalars ht spare)] at extended
    have same : u = b := by
      cases extended
      rfl
    have kind : b.kind = t.kind := by
      rw [← TypeDef.kind_contents_fromOrigin .definition b, ← grown.definition,
        TypeDef.kind_contents_fromOrigin]
    have isScalar : t.kind = .scalar := by
      have both := spare.1
      simp only [TypeDef.isBuiltInScalar, Bool.and_eq_true, beq_iff_eq] at both
      exact both.2
    obtain ⟨language, plain⟩ := scalar (kind.trans isScalar)
    exact .renewed spare (grown.name ▸ language) (by rw [same, grown.name]; exact plain)
  · rw [extensionsOf_toDefinitions ((mem_settle_iff scalars).mpr ⟨ht, spare⟩)] at extended
    exact .regrouped spare
      (regrouped_of_grown grown plain definition (builtIn_types b hb) extended)

/-- All types come back in their order. -/
theorem types_readBack
    (arranged : Arranged s.types)
    {types : Table TypeDef}
    (assembled : assembleTypes s.settle.toDefinitions = .ok types) :
    List.Forall₂ (TypeReadBack s) s.types.items types.items := by
  have scalars : ∀ n ∈ BuiltIn.scalarNames, n ∈ s.types.keys := by
    have all : ∀ n ∈ BuiltIn.scalarNames, n ∈ BuiltIn.types.keys := by decide
    exact fun n hn => arranged.keys (all n hn)
  obtain ⟨front, back, items, grown, others⟩ := arranged
  obtain ⟨bs, ts, builtIn, declared, items'⟩ := assembleTypes_eq_ok assembled
  have inFront : ∀ t ∈ front, t ∈ s.types.items :=
    fun t ht => items ▸ List.mem_append_left _ ht
  have behind : ∀ t ∈ back, t ∈ s.types.items ∧ ¬ s.Spare t := by
    refine fun t ht => ⟨items ▸ List.mem_append_right _ ht, fun spare => ?_⟩
    have scalar := spare.1
    simp [TypeDef.isBuiltInScalar, others t ht] at scalar
  have written : SystemDefinition.types s.settle.toDefinitions =
      back.map (TypeDef.fromOrigin .definition) := by
    have none : front.filter (fun t => !t.builtIn) = [] :=
      List.filter_eq_nil_iff.mpr fun t ht => by
        obtain ⟨b, -, hbt⟩ := exists_of_mem_forall₂ grown ht
        simp [hbt.builtIn]
    have all : back.filter (fun t => !t.builtIn) = back :=
      List.filter_eq_self.mpr fun t ht => by simp [others t ht]
    rw [types_toDefinitions, items_settle scalars, items, List.filter_comm, List.filter_append,
      none, all, List.nil_append]
    refine congrArg _ (List.filter_eq_self.mpr fun t ht => ?_)
    simp [TypeDef.isBuiltInScalar, others t ht]
  rw [items, items']
  refine List.rel_append ?_ ?_
  · exact forall₂_of_common grown (mapM_eq_ok_iff.mp builtIn) fun b hb t ht u hbt extended =>
      typeReadBack_of_grown scalars hb (inFront t ht) hbt extended
  · have declared := mapM_eq_ok_iff.mp declared
    rw [written, List.forall₂_map_left_iff] at declared
    refine ((List.forall₂_and_left _ _).mpr ⟨fun t ht => ht, declared⟩).imp ?_
    rintro t u ⟨ht, assembled⟩
    obtain ⟨mem, kept⟩ := behind t ht
    exact .regrouped kept (regrouped_of_assembleType ((mem_settle_iff scalars).mpr ⟨mem, kept⟩)
      (others t ht) assembled)

end Types

section Wholes

theorem regrouped_of_assembleDefinition
    {types : Table TypeDef}
    {d : SchemaDef}
    (written : s.definition.isImplicit s.types = false)
    (assembled : assembleDefinition types s.toDefinitions = .ok d) :
    s.definition.Regrouped
      (Origin.renumber s.definition.extensions) s.definition.extensions d := by
  have numbers := Origin.numbers_renumber
    (s.definition.directives.map Sourced.origin ++ s.definition.roots.map (fun r => r.2.origin))
  simp only [assembleDefinition, schemas_toDefinitions, written, schemaExtensions_toDefinitions,
    Bool.false_eq_true, if_false] at assembled
  cases started : SchemaDef.add .definition
      { SchemaDef.empty with description := (s.definition.fromOrigin .definition).description }
      (s.definition.fromOrigin .definition) with
  | error e => simp only [started, bind, Except.bind] at assembled; cases assembled
  | ok start =>
      simp only [started, bind, Except.bind] at assembled
      exact (SchemaDef.regrouped_of_definition rfl started).extendAll rfl
        (Origin.nodup_extensions _) (fun _ ho => (Origin.mem_extensions_iff.mp ho).2) assembled

/-- **Reading a settled schema again.** -/
theorem readBack_of_ofDefinitions
    (arranged : Arranged s.types)
    (stacked : Stacked s.directives)
    (written : s.definition.isImplicit s.settle.types = false)
    (reread : ofDefinitions s.settle.toDefinitions = .ok s') :
    s.ReadBack s' := by
  obtain ⟨directives, types, definition, added, assembled, defined, rfl⟩ :=
    ofDefinitions_eq_ok_iff.mp reread
  refine ⟨types_readBack arranged assembled, ?_, ?_, ?_⟩
  · rw [directives_toDefinitions] at added
    have same := stacked.addDirectives_eq.symm.trans added
    cases same
    rfl
  · exact regrouped_of_assembleDefinition (s := s.settle) written defined
  · intro n hn
    refine List.mem_filter.mpr ⟨hn, (Table.contains_iff _ _).mpr ?_⟩
    refine (arranged_of_assembleTypes assembled).keys ?_
    rw [Table.keys, BuiltIn.types, List.map_append]
    exact List.mem_append_left _ hn

end Wholes

end Schema
end Supergraph
