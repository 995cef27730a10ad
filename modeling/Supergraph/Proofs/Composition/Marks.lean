import Supergraph.Proofs.Composition.Outcome
import Supergraph.Proofs.Recovery

/-!
# What is marked

Marks are set in two ways.  Recovery goes through the names of the vocabulary that it has
read and marks what the schema has under them; a composition marks whatever it puts in, at
that moment.  The two agree: as long as compositions succeed or are refused, the marks are on
what the schema has of the recorded vocabulary and on nothing else, and after a composition
that succeeded they are on the whole of it (`marks_follow_record`).  A composition that failed
later than that is left out, since it has set marks without a record.
-/

namespace Supergraph

/-- A name is among others if one of them has its text. -/
theorem Name.any_text_iff
    {names : List Name}
    {n : Name} :
    names.any (fun m => m.text == n.text) = true ↔ n ∈ names := by
  rw [List.any_eq_true]
  constructor
  · rintro ⟨m, hm, same⟩
    exact Name.ext_text (beq_iff_eq.mp same) ▸ hm
  · intro hn
    exact ⟨n, hn, beq_self_eq_true n.text⟩

namespace Target

variable {s : Schema} {f g : Target} {v : Vocabulary} {templates : Templates} {r : Registration}

section Invariant

/-- What is marked is what the schema has under the names of this vocabulary. -/
structure MarksOnly (v : Vocabulary) (f : Target) : Prop where
  types : ∀ n, f.isMarkedType n = true ↔ n ∈ v.typeNames ∧ n ∈ f.schema.types.keys
  directives : ∀ n,
    f.isMarkedDirective n = true ↔ n ∈ v.directiveNames ∧ n ∈ f.schema.directives.keys

/-- The marks are those of the vocabulary that is recorded; without a record there are
none. -/
structure MarksRecorded (f : Target) : Prop where
  unrecorded : f.config = none → f.markedTypes.keys = [] ∧ f.markedDirectives.keys = []
  recorded : ∀ c, f.config = some c → ∃ v : Vocabulary, v.config = c ∧ MarksOnly v f

theorem MarksRecorded.of_config
    (config : f.config = some v.config)
    (marks : MarksOnly v f) :
    f.MarksRecorded where
  unrecorded := by
    intro none
    rw [config] at none
    cases none
  recorded := by
    intro c hc
    rw [config, Option.some_inj] at hc
    exact ⟨v, hc, marks⟩

theorem MarksRecorded.unmarked
    (h : f.MarksRecorded)
    (unrecorded : f.config = none) :
    (∀ n, ¬ f.isMarkedType n = true) ∧ ∀ n, ¬ f.isMarkedDirective n = true := by
  obtain ⟨types, directives⟩ := h.unrecorded unrecorded
  constructor
  · intro n marked
    rw [isMarkedType_iff, types] at marked
    cases marked
  · intro n marked
    rw [isMarkedDirective_iff, directives] at marked
    cases marked

theorem MarksRecorded.marksOnly
    (h : f.MarksRecorded)
    (recorded : f.config = some v.config) :
    MarksOnly v f := by
  obtain ⟨w, same, marks⟩ := h.recorded v.config recorded
  obtain rfl : w = v := Vocabulary.config_injective same
  exact marks

/-- Recovery establishes it, from whatever part of the vocabulary the schema has. -/
theorem marksRecorded_ofSchema
    (s : Schema) :
    (ofSchema s).MarksRecorded := by
  cases h : Vocabulary.ofApplications? s.definition.applications with
  | none =>
      rw [ofSchema_of_unrecorded h]
      exact ⟨fun _ => ⟨rfl, rfl⟩, nofun⟩
  | some v =>
      rw [ofSchema_of_recorded h]
      refine .of_config (config_recover _ v) ⟨fun n => ?_, fun n => ?_⟩
      · rw [isMarkedType_recover, schema_recover]
        exact or_iff_left nofun
      · rw [isMarkedDirective_recover, schema_recover]
        exact or_iff_left nofun

/-- For a vocabulary that goes ahead, all marks are under its names. -/
theorem MarksRecorded.names_of_ahead
    (h : f.MarksRecorded)
    (ahead : f.refusal? v = none) :
    (∀ n, f.isMarkedType n = true → n ∈ v.typeNames) ∧
      ∀ n, f.isMarkedDirective n = true → n ∈ v.directiveNames := by
  cases config : f.config with
  | none =>
      obtain ⟨types, directives⟩ := h.unmarked config
      exact ⟨fun n marked => absurd marked (types n),
        fun n marked => absurd marked (directives n)⟩
  | some c =>
      obtain rfl : c = v.config := (refusal?_eq_none_iff.mp ahead).1 c config
      have marks := h.marksOnly config
      exact ⟨fun n marked => ((marks.types n).mp marked).1,
        fun n marked => ((marks.directives n).mp marked).1⟩

/-- After a composition that succeeded, the names of the vocabulary are marked, and no
others. -/
theorem MarksRecorded.isMarked_iff_of_compose
    (h : f.MarksRecorded)
    (succeeded : f.compose v templates = (g, .ok r)) :
    (∀ n, g.isMarkedType n = true ↔ n ∈ v.typeNames) ∧
      ∀ n, g.isMarkedDirective n = true ↔ n ∈ v.directiveNames := by
  have composed := composed_of_compose succeeded
  obtain ⟨types, directives⟩ := h.names_of_ahead (stages_of_compose succeeded).1
  exact ⟨fun n => (composed.markedTypes n).trans (or_iff_left_of_imp (types n)),
    fun n => (composed.markedDirectives n).trans (or_iff_left_of_imp (directives n))⟩

/-- A composition that succeeds or is refused keeps it. -/
theorem marksRecorded_compose
    (h : f.MarksRecorded)
    (otherwise : ∀ e, (f.compose v templates).2 = .error e → e.code = .configurationConflict) :
    (f.compose v templates).1.MarksRecorded := by
  cases answer : (f.compose v templates).2 with
  | error e =>
      have refused : f.refusal? v ≠ none :=
        conflicts_iff_refused.mp ⟨e, answer, otherwise e answer⟩
      obtain ⟨e', refused⟩ := Option.ne_none_iff_exists'.mp refused
      rw [compose_of_refusal templates refused]
      exact h
  | ok r =>
      have succeeded : f.compose v templates = ((f.compose v templates).1, .ok r) :=
        Prod.ext rfl answer
      have composed := composed_of_compose succeeded
      obtain ⟨types, directives⟩ := h.isMarked_iff_of_compose succeeded
      refine .of_config composed.config ⟨fun n => ?_, fun n => ?_⟩
      · rw [types]
        exact (and_iff_left_of_imp composed.mem_types).symm
      · rw [directives]
        exact (and_iff_left_of_imp composed.mem_directives).symm

end Invariant

section Runs

/-- In the run, no composition fails but for a conflict. -/
def ConflictsOnly : Target → List (Vocabulary × Templates) → Prop
  | _, [] => True
  | f, (v, templates) :: runs =>
      (∀ e, (f.compose v templates).2 = .error e → e.code = .configurationConflict) ∧
        ConflictsOnly (f.compose v templates).1 runs

theorem ConflictsOnly.of_append
    {before after : List (Vocabulary × Templates)}
    (h : f.ConflictsOnly (before ++ after)) :
    f.ConflictsOnly before := by
  induction before generalizing f with
  | nil => trivial
  | cons run before ih => exact ⟨h.1, ih h.2⟩

theorem marksRecorded_composeAll
    {runs : List (Vocabulary × Templates)}
    (h : f.MarksRecorded)
    (conflicts : f.ConflictsOnly runs) :
    (f.composeAll runs).MarksRecorded := by
  induction runs generalizing f with
  | nil => exact h
  | cons run runs ih => exact ih (marksRecorded_compose h conflicts.1) conflicts.2

/-- **Marks are exactly the vocabulary.**  In a run of compositions in which nothing fails but
for conflicts, every target on the way has the marks that its record says: none without a
record, and with one those of the members that the schema has of its vocabulary.  After a
composition that succeeded these are all seven types and all thirteen directives, so that
marks and names of the vocabulary are the same. -/
theorem marks_follow_record
    {before after : List (Vocabulary × Templates)}
    (conflicts : (ofSchema s).ConflictsOnly (before ++ after)) :
    ((ofSchema s).composeAll before).MarksRecorded ∧
      ∀ v templates g r,
        ((ofSchema s).composeAll before).compose v templates = (g, .ok r) →
        g.markedTypes.keys.Perm v.typeNames ∧
          g.markedDirectives.keys.Perm v.directiveNames ∧
          (∀ n : Name, g.isMarkedType n = v.isTypeName n.text) ∧
          ∀ n : Name, g.isMarkedDirective n = v.isDirectiveName n.text := by
  have marks : ((ofSchema s).composeAll before).MarksRecorded :=
    marksRecorded_composeAll (marksRecorded_ofSchema s) conflicts.of_append
  refine ⟨marks, ?_⟩
  intro v templates g r succeeded
  obtain ⟨types, directives⟩ := marks.isMarked_iff_of_compose succeeded
  refine ⟨?_, ?_, ?_, ?_⟩
  · exact Table.keys_perm_of_mem_iff v.nodup_typeNames
      fun n => isMarkedType_iff.symm.trans (types n)
  · exact Table.keys_perm_of_mem_iff (v.nodup_map_directiveName (by decide))
      fun n => isMarkedDirective_iff.symm.trans (directives n)
  · intro n
    rw [Bool.eq_iff_iff, types]
    exact Name.any_text_iff.symm
  · intro n
    rw [Bool.eq_iff_iff, directives]
    exact Name.any_text_iff.symm

/-- A composition is refused because of an author's scalar, and one with a prefix succeeds. -/
theorem marks_follow_record_after_conflict :
    (ofSchema takenName).ConflictsOnly [(.bare, .builtIn)] ∧
      (((ofSchema takenName).composeAll [(.bare, .builtIn)]).compose .underP .builtIn).2 =
        .ok ⟨.underP, Vocabulary.underP.placeholders⟩ ∧
      (((ofSchema takenName).composeAll [(.bare, .builtIn)]).compose
          .underP .builtIn).1.markedTypes.keys.Perm Vocabulary.underP.typeNames := by
  have refused : ((ofSchema takenName).compose .bare .builtIn).2 =
      .error (.nameCollision [FusionType.typeName.baseName] []) := rfl
  have conflicts : (ofSchema takenName).ConflictsOnly ([(.bare, .builtIn)] ++ []) := by
    refine ⟨?_, trivial⟩
    intro e failed
    rw [refused] at failed
    cases failed
    rfl
  have succeeded :
      (((ofSchema takenName).composeAll [(.bare, .builtIn)]).compose .underP .builtIn).2 =
        .ok ⟨.underP, Vocabulary.underP.placeholders⟩ := rfl
  exact ⟨conflicts, succeeded,
    ((marks_follow_record conflicts).2 _ _ _ _ (Prod.ext rfl succeeded)).1⟩

end Runs

end Target
end Supergraph
