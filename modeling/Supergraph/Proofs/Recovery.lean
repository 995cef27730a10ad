import Supergraph.Proofs.Composition.Success

/-!
# What a composed schema remembers

The application of the root directive that a composition leaves is read back as the
vocabulary that it was made for.  It stands last, however, and recovery takes the
first application that can be read: a composed schema remembers its composition just
if no application of another name can be read (`remembers_composition_iff`).
-/

namespace Supergraph

namespace Vocabulary

theorem ofConfig_of
    (q : Option Name)
    (b : Bool)
    (h : b = true → q.isSome = true) :
    ofConfig (Config.of (q.map Name.text) b) = .ok ⟨q, b, h⟩ := by
  have normal : Config.of (q.map Name.text) b = (config ⟨q, b, h⟩).normalize := rfl
  rw [normal, ofConfig_normalize, ofConfig_config]

/-- The root application is read back as the vocabulary that it was made for. -/
theorem ofApplication?_rootApplication
    (v : Vocabulary) :
    ofApplication? v.rootApplication = some v := by
  obtain ⟨q, b, h⟩ := v
  cases q with
  | none =>
      obtain rfl : b = false := by simpa using h
      rfl
  | some q =>
      have version : (rootApplication ⟨some q, b, h⟩).argument? ArgumentName.version =
          some (.int formatVersion) := rfl
      have qualifier : recordedQualifier? (rootApplication ⟨some q, b, h⟩) =
          some (some q.text) := rfl
      have qualifyRoot : recordedQualifyRoot (rootApplication ⟨some q, b, h⟩) = b := by
        cases b <;> rfl
      have decoded : ofConfig (Config.of (some q.text) b) = .ok ⟨some q, b, h⟩ :=
        ofConfig_of (some q) b h
      simp only [ofApplication?, version, qualifier, qualifyRoot, decoded]
      exact if_pos rfl

theorem name_of_ofApplication?
    {d : Directive}
    {v : Vocabulary}
    (h : ofApplication? d = some v) :
    d.name = v.directiveName .root := by
  unfold ofApplication? at h
  split at h
  · split at h
    · split at h
      · rename_i named
        cases h
        exact named
      · cases h
    · cases h
  · cases h

end Vocabulary

namespace Target

section Recover

variable {f : Target} {v : Vocabulary}

theorem config_recover
    (f : Target)
    (v : Vocabulary) :
    (f.recover v).config = some v.config :=
  rfl

theorem markedTypes_foldl_markType
    (ns : List Name)
    (f : Target) :
    (ns.foldl markType f).markedTypes = ns.foldl Table.put f.markedTypes := by
  induction ns generalizing f with
  | nil => rfl
  | cons n ns ih => exact ih _

theorem markedDirectives_foldl_markDirective
    (ns : List Name)
    (f : Target) :
    (ns.foldl markDirective f).markedDirectives = ns.foldl Table.put f.markedDirectives := by
  induction ns generalizing f with
  | nil => rfl
  | cons n ns ih => exact ih _

/-- Recovery marks the types of the vocabulary that there are. -/
theorem isMarkedType_recover
    {n : Name} :
    (f.recover v).isMarkedType n = true ↔
      (n ∈ v.typeNames ∧ n ∈ f.schema.types.keys) ∨ f.isMarkedType n = true := by
  have marked : (f.recover v).markedTypes =
      (v.typeNames.filter f.schema.types.contains).foldl Table.put f.markedTypes :=
    (apply_foldl_eq markDirective markedTypes (fun _ _ => rfl) _ _).trans
      (markedTypes_foldl_markType _ f)
  rw [isMarkedType_iff, marked, Table.mem_keys_foldl_put, isMarkedType_iff]
  simp [Table.contains_iff]

/-- Recovery marks the directives of the vocabulary that there are. -/
theorem isMarkedDirective_recover
    {n : Name} :
    (f.recover v).isMarkedDirective n = true ↔
      (n ∈ v.directiveNames ∧ n ∈ f.schema.directives.keys) ∨ f.isMarkedDirective n = true := by
  have same : ((v.typeNames.filter f.schema.types.contains).foldl markType f).schema = f.schema :=
    apply_foldl_eq markType schema (fun _ _ => rfl) _ f
  have kept : ((v.typeNames.filter f.schema.types.contains).foldl markType f).markedDirectives =
      f.markedDirectives :=
    apply_foldl_eq markType markedDirectives (fun _ _ => rfl) _ f
  have marked : (f.recover v).markedDirectives =
      (v.directiveNames.filter f.schema.directives.contains).foldl Table.put
        f.markedDirectives :=
    (markedDirectives_foldl_markDirective _ _).trans (by rw [kept, same])
  rw [isMarkedDirective_iff, marked, Table.mem_keys_foldl_put, isMarkedDirective_iff]
  simp [Table.contains_iff]

end Recover

section Remembered

variable {s : Schema} {v : Vocabulary} {templates : Templates} {f g : Target}

theorem ofSchema_of_recorded
    (h : Vocabulary.ofApplications? s.definition.applications = some v) :
    ofSchema s = (unmarked s).recover v := by
  simp only [ofSchema, h]

theorem ofSchema_of_unrecorded
    (h : Vocabulary.ofApplications? s.definition.applications = none) :
    ofSchema s = unmarked s := by
  simp only [ofSchema, h]

/-- A schema that is composed with a vocabulary bears marks under its names only. -/
theorem marks_ofSchema
    (ahead : (ofSchema s).refusal? v = none) :
    (∀ n, (ofSchema s).isMarkedType n = true → n ∈ v.typeNames) ∧
      ∀ n, (ofSchema s).isMarkedDirective n = true → n ∈ v.directiveNames := by
  cases h : Vocabulary.ofApplications? s.definition.applications with
  | none =>
      rw [ofSchema_of_unrecorded h]
      constructor <;> intro n hn <;> cases hn
  | some w =>
      rw [ofSchema_of_recorded h] at ahead ⊢
      obtain rfl : w = v :=
        Vocabulary.config_injective ((refusal?_eq_none_iff.mp ahead).1 _ (config_recover _ w))
      constructor
      · intro n hn
        rcases isMarkedType_recover.mp hn with ⟨hn, _⟩ | hn
        · exact hn
        · cases hn
      · intro n hn
        rcases isMarkedDirective_recover.mp hn with ⟨hn, _⟩ | hn
        · exact hn
        · cases hn

/-- After a composition, the first application of another name that can be read is what
the schema records; if there is none, it records the composition. -/
theorem recorded_of_composed
    (h : Composed v templates f g) :
    Vocabulary.ofApplications? g.schema.definition.applications =
      some ((Vocabulary.ofApplications?
        (f.schema.definition.applications.filter
          (fun d => d.name != v.directiveName .root))).getD v) := by
  have applications : g.schema.definition.applications =
      f.schema.definition.applications.filter (fun d => d.name != v.directiveName .root)
        ++ [v.rootApplication] := by
    rw [h.definition]
    simp only [SchemaDef.applications, List.map_append, List.map_cons, List.map_nil,
      List.filter_map]
    rfl
  rw [applications, Vocabulary.ofApplications?, List.findSome?_append, List.findSome?_cons,
    Vocabulary.ofApplication?_rootApplication, Vocabulary.ofApplications?]
  cases List.findSome? Vocabulary.ofApplication? _ <;> rfl

/-- Nothing under another name is read as a record of this vocabulary. -/
theorem ne_of_other_record
    {ds : List Directive}
    {w : Vocabulary}
    (h : Vocabulary.ofApplications?
      (ds.filter (fun d => d.name != v.directiveName .root)) = some w) :
    w ≠ v := by
  rintro rfl
  obtain ⟨d, hd, hdw⟩ := List.exists_of_findSome?_eq_some h
  have named := Vocabulary.name_of_ofApplication? hdw
  simp [named] at hd

/-- With its own vocabulary recovered, a composed schema has the types marked that were
marked before. -/
theorem isMarkedType_recover_composed
    (h : Composed v templates f g)
    (before : ∀ n, f.isMarkedType n = true → n ∈ v.typeNames)
    (n : Name) :
    ((unmarked g.schema).recover v).isMarkedType n = g.isMarkedType n := by
  rw [Bool.eq_iff_iff, isMarkedType_recover, h.markedTypes]
  constructor
  · rintro (⟨hn, _⟩ | hn)
    · exact Or.inl hn
    · cases hn
  · intro hn
    have own : n ∈ v.typeNames := hn.elim id (before n)
    exact Or.inl ⟨own, h.mem_types own⟩

theorem isMarkedDirective_recover_composed
    (h : Composed v templates f g)
    (before : ∀ n, f.isMarkedDirective n = true → n ∈ v.directiveNames)
    (n : Name) :
    ((unmarked g.schema).recover v).isMarkedDirective n = g.isMarkedDirective n := by
  rw [Bool.eq_iff_iff, isMarkedDirective_recover, h.markedDirectives]
  constructor
  · rintro (⟨hn, _⟩ | hn)
    · exact Or.inl hn
    · cases hn
  · intro hn
    have own : n ∈ v.directiveNames := hn.elim id (before n)
    exact Or.inl ⟨own, h.mem_directives own⟩

/-- **What a composed schema remembers.**  After a composition that succeeded, reading
the schema anew gives the same configuration and the same marks just if no application
on the schema definition, other than those of the root directive itself, can be read
as a record. -/
theorem remembers_composition_iff
    {r : Registration}
    (h : (ofSchema s).compose v templates = (g, .ok r)) :
    ((ofSchema g.schema).config = some v.config ∧
        (∀ n, (ofSchema g.schema).isMarkedType n = g.isMarkedType n) ∧
        ∀ n, (ofSchema g.schema).isMarkedDirective n = g.isMarkedDirective n) ↔
      ∀ d ∈ s.definition.applications,
        d.name ≠ v.directiveName .root → Vocabulary.ofApplication? d = none := by
  have composed := composed_of_compose h
  have marks := marks_ofSchema (stages_of_compose h).1
  have recorded := recorded_of_composed composed
  rw [schema_ofSchema] at recorded
  rw [ofSchema_of_recorded recorded]
  have others : (∀ d ∈ s.definition.applications,
        d.name ≠ v.directiveName .root → Vocabulary.ofApplication? d = none) ↔
      Vocabulary.ofApplications?
        (s.definition.applications.filter (fun d => d.name != v.directiveName .root)) = none := by
    simp [Vocabulary.ofApplications?, List.findSome?_eq_none_iff]
  rw [others]
  cases other : Vocabulary.ofApplications?
      (s.definition.applications.filter (fun d => d.name != v.directiveName .root)) with
  | none =>
      have types := isMarkedType_recover_composed composed marks.1
      have directives := isMarkedDirective_recover_composed composed marks.2
      exact iff_of_true ⟨rfl, types, directives⟩ rfl
  | some w =>
      refine iff_of_false ?_ (by simp)
      rintro ⟨config, -, -⟩
      rw [Option.getD_some, config_recover, Option.some_inj] at config
      exact ne_of_other_record other (Vocabulary.config_injective config)

/-- The built-in schema with records of these vocabularies on it, in this order. -/
def recording (vs : List Vocabulary) : Schema :=
  { BuiltIn.schema with
    definition := { SchemaDef.empty with
      directives := vs.map (fun v => ⟨.definition, v.rootApplication⟩) } }

/-- The built-in schema with several root applications.  The vocabulary without a prefix is
recorded twice, in the definition and in an extension.  Between them, one application under a
prefix lacks the version, and the other the prefix that would lead to its name. -/
def recordedTwice : Schema :=
  let own := Vocabulary.bare.rootApplication
  let other := Vocabulary.underP.rootApplication
  { BuiltIn.schema with
    definition := { SchemaDef.empty with
      directives :=
        [ ⟨.definition, own⟩,
          ⟨.definition, { other with arguments := [] }⟩,
          ⟨.extension 0, { other with arguments := own.arguments }⟩,
          ⟨.extension 0, own⟩ ] } }

/-- A schema that records its own composition only keeps the record, though it comes last. -/
theorem remembers_second_composition :
    ((ofSchema recordedTwice).compose .bare .builtIn).2 =
        .ok ⟨.bare, Vocabulary.bare.placeholders⟩ ∧
      (∀ d ∈ recordedTwice.definition.applications,
        d.name ≠ Vocabulary.bare.directiveName .root → Vocabulary.ofApplication? d = none) ∧
      let g := ((ofSchema recordedTwice).compose .bare .builtIn).1
      (ofSchema g.schema).config = some Vocabulary.bare.config ∧
        (∀ n, (ofSchema g.schema).isMarkedType n = g.isMarkedType n) ∧
        ∀ n, (ofSchema g.schema).isMarkedDirective n = g.isMarkedDirective n := by
  have composed : ((ofSchema recordedTwice).compose .bare .builtIn).2 =
      .ok ⟨.bare, Vocabulary.bare.placeholders⟩ := rfl
  have others : ∀ d ∈ recordedTwice.definition.applications,
      d.name ≠ Vocabulary.bare.directiveName .root → Vocabulary.ofApplication? d = none := by
    decide
  exact ⟨composed, others, (remembers_composition_iff (Prod.ext rfl composed)).mpr others⟩

/-- The record is moved to the end; behind that of another vocabulary it is lost. -/
theorem forgets_composition_of_two_records :
    ¬ ∀ (s : Schema) (v : Vocabulary) (templates : Templates) (g : Target) (r : Registration),
      (ofSchema s).compose v templates = (g, .ok r) →
        (ofSchema g.schema).config = some v.config ∧
          (∀ n, (ofSchema g.schema).isMarkedType n = g.isMarkedType n) ∧
          ∀ n, (ofSchema g.schema).isMarkedDirective n = g.isMarkedDirective n := by
  intro remembers
  have composed : ((ofSchema (recording [.bare, .underP])).compose .bare .builtIn).2 =
      .ok ⟨.bare, Vocabulary.bare.placeholders⟩ := rfl
  have kept := remembers (recording [.bare, .underP]) .bare .builtIn
    ((ofSchema (recording [.bare, .underP])).compose .bare .builtIn).1 _ (Prod.ext rfl composed)
  have other : (ofSchema
      ((ofSchema (recording [.bare, .underP])).compose .bare .builtIn).1.schema).config =
        some Vocabulary.underP.config := rfl
  have same : some Vocabulary.underP.config = some Vocabulary.bare.config :=
    other.symm.trans kept.1
  revert same
  decide

end Remembered

end Target
end Supergraph
