import Supergraph.Proofs.Recovery

/-!
# Which application is taken for a record

An application *records* a configuration if its arguments say so and its name is the one that
they lead to.  That is told from the arguments alone: of several with one name the first one
counts, the others and all other names do not matter.

Recovery takes the first application that records anything, and its configuration
(`recovery_takes_first_record`).
-/

namespace Supergraph

/-- Of the arguments of this name the first one has this value. -/
def Argument.FirstOf (as : List Argument) (n : Name) (x : Value) : Prop :=
  ∃ front back, as = front ++ ⟨n, x⟩ :: back ∧ ∀ a ∈ front, a.name ≠ n

/-- No argument has this name. -/
def Argument.NoneOf (as : List Argument) (n : Name) : Prop :=
  ∀ a ∈ as, a.name ≠ n

namespace Directive

/-- The prefix that the arguments of an application give, which may be none. -/
inductive GivesQualifier (d : Directive) : Option Name → Prop
  | absent
      (h : Argument.NoneOf d.arguments ArgumentName.qualifier) :
      GivesQualifier d none
  | null
      (h : Argument.FirstOf d.arguments ArgumentName.qualifier .null) :
      GivesQualifier d none
  | empty
      (h : Argument.FirstOf d.arguments ArgumentName.qualifier (.string "")) :
      GivesQualifier d none
  | named
      (q : Name)
      (h : Argument.FirstOf d.arguments ArgumentName.qualifier (.string q.text)) :
      GivesQualifier d (some q)

/-- The text of the name of the root directive, with the prefix on request. -/
def rootText : Option Name → Bool → String
  | some q, true => q.text ++ "_" ++ "fusion"
  | _, _ => "fusion"

/-- The application records the configuration: it has a version, gives a prefix or none, and
bears the name that these and the request for a prefix lead to. -/
inductive Records (d : Directive) : Config → Prop
  | of
      {q : Option Name}
      {b : Bool}
      (version : ¬ Argument.NoneOf d.arguments ArgumentName.version)
      (qualifier : d.GivesQualifier q)
      (qualifyRoot :
        b = true ↔ Argument.FirstOf d.arguments ArgumentName.qualifyRoot (.boolean true))
      (name : d.name.text = rootText q b) :
      Records d ⟨q.map Name.text, q.isSome && b⟩

/-- The first application in the list that records anything is this one, and it records this
configuration. -/
def FirstRecord (ds : List Directive) (d : Directive) (c : Config) : Prop :=
  d.Records c ∧ ∃ front back, ds = front ++ d :: back ∧ ∀ e ∈ front, ∀ c', ¬ e.Records c'

section Arguments

variable {d : Directive} {n : Name} {x : Value}

theorem argument?_eq_some_iff :
    d.argument? n = some x ↔ Argument.FirstOf d.arguments n x := by
  simp only [argument?, lookup, Option.map_eq_some_iff, List.find?_eq_some_iff_append]
  constructor
  · rintro ⟨⟨m, y⟩, ⟨named, front, back, split, others⟩, rfl⟩
    obtain rfl : m = n := beq_iff_eq.mp named
    exact ⟨front, back, split, fun a ha same => by simpa [key, same] using others a ha⟩
  · rintro ⟨front, back, split, others⟩
    exact ⟨⟨n, x⟩, ⟨beq_self_eq_true n, front, back, split,
      fun a ha => by simpa [key] using others a ha⟩, rfl⟩

theorem argument?_eq_none_iff :
    d.argument? n = none ↔ Argument.NoneOf d.arguments n := by
  simp [argument?, lookup, Argument.NoneOf, key]

end Arguments

end Directive

namespace Vocabulary

/-- The vocabulary with this prefix, if any; the root directive has it too on request. -/
def under (q : Option Name) (asked : Bool) : Vocabulary where
  qualifier := q
  qualifyRoot := q.isSome && asked
  isSome_of_qualifyRoot h := (Bool.and_eq_true_iff.mp h).1

section Decoding

variable {d : Directive} {v : Vocabulary} {b : Bool}

theorem text_root_under
    (q : Option Name)
    (b : Bool) :
    ((under q b).directiveName .root).text = Directive.rootText q b := by
  cases q <;> cases b <;> rfl

/-- There is one vocabulary without a prefix. -/
theorem ofConfig_of_none :
    ofConfig (Config.of none b) = .ok v ↔ v = under none b := by
  have bare : ofConfig (Config.of none b) = .ok (under none b) := rfl
  rw [bare, Except.ok.injEq, eq_comm]

/-- A text is no prefix at all, or a name, or leads to no vocabulary. -/
theorem ofConfig_of_some
    {s : String} :
    ofConfig (Config.of (some s) b) = .ok v ↔
      s = "" ∧ v = under none b ∨ ∃ q : Name, q.text = s ∧ v = under (some q) b := by
  by_cases empty : s = ""
  · subst empty
    have bare : ofConfig (Config.of (some "") b) = .ok (under none b) := rfl
    have unnamed : ∀ q : Name, q.text ≠ "" := Name.text_ne_empty
    simp [bare, unnamed, eq_comm]
  · have raw : ofConfig (Config.of (some s) b) = ofConfig ⟨some s, b⟩ := ofConfig_normalize _
    rw [raw, ofConfig, show Config.effectiveQualifier ⟨some s, b⟩ = some s from if_neg empty]
    constructor
    · intro h
      dsimp only at h
      split at h
      · rename_i q named
        cases h
        exact Or.inr ⟨q, Name.text_of_ofString? named, rfl⟩
      · cases h
    · rintro (⟨rfl, -⟩ | ⟨q, rfl, rfl⟩)
      · exact absurd rfl empty
      · simp only [Name.ofString?_text]
        rfl

/-- What is decoded for the prefix is what the arguments give. -/
theorem givesQualifier_iff :
    (∃ s, recordedQualifier? d = some s ∧ ofConfig (Config.of s b) = .ok v) ↔
      ∃ q, d.GivesQualifier q ∧ v = under q b := by
  constructor
  · rintro ⟨s, recorded, decoded⟩
    unfold recordedQualifier? at recorded
    split at recorded
    · rename_i given
      cases recorded
      exact ⟨none, .absent (Directive.argument?_eq_none_iff.mp given), ofConfig_of_none.mp decoded⟩
    · rename_i given
      cases recorded
      exact ⟨none, .null (Directive.argument?_eq_some_iff.mp given), ofConfig_of_none.mp decoded⟩
    · rename_i text given
      cases recorded
      have first := Directive.argument?_eq_some_iff.mp given
      rcases ofConfig_of_some.mp decoded with ⟨rfl, hv⟩ | ⟨q, rfl, hv⟩
      · exact ⟨none, .empty first, hv⟩
      · exact ⟨some q, .named q first, hv⟩
    · cases recorded
  · rintro ⟨q, given, hv⟩
    cases given with
    | absent h =>
        refine ⟨none, ?_, ofConfig_of_none.mpr hv⟩
        simp only [recordedQualifier?, Directive.argument?_eq_none_iff.mpr h]
    | null h =>
        refine ⟨none, ?_, ofConfig_of_none.mpr hv⟩
        simp only [recordedQualifier?, Directive.argument?_eq_some_iff.mpr h]
    | empty h =>
        refine ⟨some "", ?_, ofConfig_of_some.mpr (Or.inl ⟨rfl, hv⟩)⟩
        simp only [recordedQualifier?, Directive.argument?_eq_some_iff.mpr h]
    | named q h =>
        refine ⟨some q.text, ?_, ofConfig_of_some.mpr (Or.inr ⟨q, rfl, hv⟩)⟩
        simp only [recordedQualifier?, Directive.argument?_eq_some_iff.mpr h]

theorem recordedQualifyRoot_iff :
    recordedQualifyRoot d = true ↔
      Argument.FirstOf d.arguments ArgumentName.qualifyRoot (.boolean true) := by
  rw [recordedQualifyRoot, beq_iff_eq, Directive.argument?_eq_some_iff]

theorem ofApplication?_eq_some_iff :
    ofApplication? d = some v ↔
      d.argument? ArgumentName.version ≠ none ∧
        (∃ s, recordedQualifier? d = some s ∧
          ofConfig (Config.of s (recordedQualifyRoot d)) = .ok v) ∧
        d.name = v.directiveName .root := by
  constructor
  · intro h
    have named := name_of_ofApplication? h
    unfold ofApplication? at h
    split at h
    · rename_i x s version recorded
      split at h
      · rename_i w decoded
        split at h
        · cases h
          exact ⟨by simp [version], ⟨s, recorded, decoded⟩, named⟩
        · cases h
      · cases h
    · cases h
  · rintro ⟨version, ⟨s, recorded, decoded⟩, named⟩
    obtain ⟨x, version⟩ := Option.ne_none_iff_exists'.mp version
    simp only [ofApplication?, version, recorded, decoded, named, if_true]

/-- An application is decoded as the vocabulary of the configuration that it records. -/
theorem records_config_iff :
    d.Records v.config ↔ ofApplication? d = some v := by
  rw [ofApplication?_eq_some_iff, givesQualifier_iff, ne_eq, Directive.argument?_eq_none_iff]
  constructor
  · intro h
    generalize config : v.config = c at h
    cases h with
    | @of q b version qualifier qualifyRoot name =>
        obtain rfl : v = under q b := config_injective config
        obtain rfl : recordedQualifyRoot d = b :=
          Bool.eq_iff_iff.mpr (recordedQualifyRoot_iff.trans qualifyRoot.symm)
        exact ⟨version, ⟨q, qualifier, rfl⟩,
          Name.ext_text (name.trans (text_root_under q _).symm)⟩
  · rintro ⟨version, ⟨q, qualifier, rfl⟩, named⟩
    exact .of version qualifier recordedQualifyRoot_iff
      ((congrArg Name.text named).trans (text_root_under q _))

/-- Whatever is recorded is the configuration of a vocabulary. -/
theorem exists_of_records
    {c : Config}
    (h : d.Records c) :
    ∃ v, config v = c := by
  cases h with
  | @of q b => exact ⟨under q b, rfl⟩

/-- An application that is not decoded records nothing. -/
theorem ofApplication?_eq_none_iff :
    ofApplication? d = none ↔ ∀ c, ¬ d.Records c := by
  constructor
  · intro undecoded c records
    obtain ⟨v, rfl⟩ := exists_of_records records
    rw [records_config_iff, undecoded] at records
    cases records
  · intro nothing
    cases h : ofApplication? d with
    | none => rfl
    | some v => exact absurd (records_config_iff.mpr h) (nothing v.config)

end Decoding

/-- The vocabulary that is read from a list is that of its first record. -/
theorem firstRecord_iff
    {ds : List Directive}
    {v : Vocabulary} :
    ofApplications? ds = some v ↔ ∃ d, Directive.FirstRecord ds d v.config := by
  rw [ofApplications?, List.findSome?_eq_some_iff]
  simp only [Directive.FirstRecord, records_config_iff, ofApplication?_eq_none_iff]
  constructor
  · rintro ⟨front, d, back, split, recorded, others⟩
    exact ⟨d, recorded, front, back, split, others⟩
  · rintro ⟨d, recorded, front, back, split, others⟩
    exact ⟨front, d, back, split, recorded, others⟩

end Vocabulary

namespace Target

section FirstRecord

variable {s : Schema}

theorem config_ofSchema
    (s : Schema) :
    (ofSchema s).config =
      (Vocabulary.ofApplications? s.definition.applications).map Vocabulary.config := by
  cases h : Vocabulary.ofApplications? s.definition.applications with
  | none =>
      rw [ofSchema_of_unrecorded h]
      rfl
  | some v =>
      rw [ofSchema_of_recorded h]
      rfl

theorem config_ofSchema_eq_some_iff
    {c : Config} :
    (ofSchema s).config = some c ↔ ∃ d, Directive.FirstRecord s.definition.applications d c := by
  rw [config_ofSchema, Option.map_eq_some_iff]
  constructor
  · rintro ⟨v, read, rfl⟩
    exact Vocabulary.firstRecord_iff.mp read
  · rintro ⟨d, first⟩
    obtain ⟨v, rfl⟩ := Vocabulary.exists_of_records first.1
    exact ⟨v, Vocabulary.firstRecord_iff.mpr ⟨d, first⟩, rfl⟩

theorem config_ofSchema_eq_none_iff :
    (ofSchema s).config = none ↔ ∀ d ∈ s.definition.applications, ∀ c, ¬ d.Records c := by
  rw [config_ofSchema, Option.map_eq_none_iff, Vocabulary.ofApplications?,
    List.findSome?_eq_none_iff]
  simp only [Vocabulary.ofApplication?_eq_none_iff]

/-- Where nothing else records anything, the first record is the one that is attached. -/
theorem firstRecord_rootApplication
    {ds : List Directive}
    {v : Vocabulary}
    (applied : v.rootApplication ∈ ds)
    (others : ∀ d ∈ ds, d ≠ v.rootApplication → ∀ c, ¬ d.Records c) :
    Directive.FirstRecord ds v.rootApplication v.config := by
  obtain ⟨front, back, rfl, notBefore⟩ := List.eq_append_cons_of_mem applied
  refine ⟨Vocabulary.records_config_iff.mpr v.ofApplication?_rootApplication, front, back, rfl,
    fun e he => others e (List.mem_append_left _ he) ?_⟩
  rintro rfl
  exact notBefore he

/-- The record that a composition leaves is the only one of its name. -/
theorem directives_of_firstRecord
    {d : Directive}
    {v : Vocabulary}
    {templates : Templates}
    {g : Target}
    {r : Registration}
    (first : Directive.FirstRecord s.definition.applications d v.config)
    (h : (ofSchema s).compose v templates = (g, .ok r)) :
    v.rootApplication.name = d.name ∧
      g.schema.definition.directives =
        s.definition.directives.filter (fun a => a.item.name != d.name)
          ++ [⟨.definition, v.rootApplication⟩] := by
  have named : d.name = v.directiveName .root :=
    Vocabulary.name_of_ofApplication? (Vocabulary.records_config_iff.mp first.1)
  have left := (composed_of_compose h).definition
  rw [schema_ofSchema] at left
  rw [left, named]
  exact ⟨rfl, rfl⟩

/-- **Recovery takes the first record.**  A schema on which nothing is a record but the
application that a configuration leads to is recovered with the normal form of that
configuration.  In general the recovered configuration is that of the first application that
records one, and there is none if no application does.  Composing with it takes away all
applications that have the name of that one, and puts the one that it leads to in their
place. -/
theorem recovery_takes_first_record
    (s : Schema) :
    (∀ c v, Vocabulary.ofConfig c = .ok v → v.rootApplication ∈ s.definition.applications →
      (∀ d ∈ s.definition.applications, d ≠ v.rootApplication → ∀ c', ¬ d.Records c') →
        (ofSchema s).config = some c.normalize) ∧
      (∀ c, (ofSchema s).config = some c ↔
        ∃ d, Directive.FirstRecord s.definition.applications d c) ∧
      ((ofSchema s).config = none ↔ ∀ d ∈ s.definition.applications, ∀ c, ¬ d.Records c) ∧
      ∀ d v templates g r,
        Directive.FirstRecord s.definition.applications d v.config →
          (ofSchema s).compose v templates = (g, .ok r) →
            v.rootApplication.name = d.name ∧
              g.schema.definition.directives =
                s.definition.directives.filter (fun a => a.item.name != d.name)
                  ++ [⟨.definition, v.rootApplication⟩] := by
  refine ⟨fun c v decoded applied others => ?_, fun c => config_ofSchema_eq_some_iff,
    config_ofSchema_eq_none_iff, fun d v templates g r => directives_of_firstRecord⟩
  rw [← Vocabulary.config_of_ofConfig decoded]
  exact config_ofSchema_eq_some_iff.mpr ⟨_, firstRecord_rootApplication applied others⟩

/-- An application of `p_fusion` that gives the prefix twice, and in its last place. -/
def twicePrefixed : Directive where
  name := ⟨"p_fusion", by decide⟩
  arguments :=
    [ ⟨ArgumentName.version, .null⟩,
      ⟨ArgumentName.qualifyRoot, .boolean true⟩,
      ⟨ArgumentName.qualifier, .string "p"⟩,
      ⟨ArgumentName.qualifier, .string "q"⟩ ]

/-- Applications that record nothing: the prefix is no string, or the name does not have it. -/
def unreadable : List Directive :=
  [ ⟨FusionDirective.root.baseName,
      [⟨ArgumentName.qualifier, .boolean true⟩, ⟨ArgumentName.version, .null⟩]⟩,
    ⟨twicePrefixed.name, [⟨ArgumentName.version, .null⟩]⟩ ]

/-- The built-in schema with several applications of root directives on it. -/
def manyRecords : Schema :=
  { BuiltIn.schema with
    definition := { SchemaDef.empty with
      directives := Sourced.allFrom .definition
        (unreadable ++ twicePrefixed :: [Vocabulary.bare.rootApplication]) } }

/-- The first application that can be read is the third; composing with what it records
takes away the second as well. -/
theorem recovery_of_manyRecords :
    Directive.FirstRecord manyRecords.definition.applications twicePrefixed
        Vocabulary.underP.config ∧
      ((ofSchema manyRecords).compose .underP .builtIn).2 =
        .ok ⟨.underP, Vocabulary.underP.placeholders⟩ ∧
      ((ofSchema manyRecords).compose .underP .builtIn).1.schema.definition.applications =
        unreadable.take 1 ++ [Vocabulary.bare.rootApplication, Vocabulary.underP.rootApplication] := by
  have others : ∀ e ∈ unreadable, Vocabulary.ofApplication? e = none := by decide
  have first : Directive.FirstRecord manyRecords.definition.applications twicePrefixed
      Vocabulary.underP.config :=
    ⟨Vocabulary.records_config_iff.mpr rfl, unreadable, _, rfl,
      fun e he => Vocabulary.ofApplication?_eq_none_iff.mp (others e he)⟩
  have composed : ((ofSchema manyRecords).compose .underP .builtIn).2 =
      .ok ⟨.underP, Vocabulary.underP.placeholders⟩ := rfl
  have left := ((recovery_takes_first_record manyRecords).2.2.2 _ _ _ _ _ first
    (Prod.ext rfl composed)).2
  refine ⟨first, composed, ?_⟩
  rw [SchemaDef.applications, left]
  decide

end FirstRecord

end Target

end Supergraph
