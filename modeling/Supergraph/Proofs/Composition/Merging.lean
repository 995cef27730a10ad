import Supergraph.Proofs.Conformance
import Supergraph.Proofs.Validity.Attachment

/-!
# Merging subgraphs

While subgraphs are merged, applications are built for each of them and appended to the
composed schema.  The directives with a definition of their own are not repeatable, so
that the schema stays valid exactly as long as no element is given the same of these
directives twice (`merged_isValid_iff`); two subgraphs that look up entities by their
id are already too many (`two_subgraphs_not_isValid`).
-/

namespace Supergraph

namespace Schema

variable {s : Schema} {definition : DirectiveDef} {d : Directive}

theorem conformAll_of_forall
    {xs : List Value}
    {t : TypeRef}
    (h : ∀ x ∈ xs, s.conforms x t = true) :
    s.conformAll xs t = true := by
  induction xs with
  | nil => rfl
  | cons x xs ih =>
      rw [conformAll, h x List.mem_cons_self, ih fun y hy => h y (List.mem_cons_of_mem x hy)]
      rfl

theorem argumentsConform_of_lookup
    (h : ∀ a ∈ d.arguments,
      ∃ p, lookup a.name definition.arguments = some p ∧ s.conforms a.value p.type = true) :
    s.argumentsConform definition d = true := by
  refine List.all_eq_true.mpr fun a ha => ?_
  obtain ⟨p, found, conforms⟩ := h a ha
  rw [found]
  exact conforms

/-- Where no argument is null, it is enough that the names cover the declared ones. -/
theorem argumentsComplete_of_covers
    (names : Covers definition.arguments (d.arguments.map Argument.name))
    (given : ∀ a ∈ d.arguments, a.value.isNull = false) :
    argumentsComplete definition d = true := by
  refine List.all_eq_true.mpr fun p hp => ?_
  cases required : p.isRequired with
  | false => rfl
  | true =>
      have nonNull : p.type.isNonNull = true := (Bool.and_eq_true_iff.mp required).1
      obtain ⟨a, ha, named⟩ := List.mem_map.mp (names.complete p hp nonNull)
      obtain ⟨b, hb⟩ : ∃ b, lookup p.name d.arguments = some b := by
        refine Option.isSome_iff_exists.mp (List.find?_isSome.mpr ⟨a, ha, ?_⟩)
        exact beq_iff_eq.mpr named
      have found : d.argument? p.name = some b.value := by rw [Directive.argument?, hb]; rfl
      simp only [found, given b (List.mem_of_find?_eq_some hb)]
      rfl

end Schema

namespace Vocabulary

variable {v : Vocabulary}

/-- The directives with a definition of their own are for what comes out of a schema. -/
theorem isOutput_of_mem_ownDirectives
    {definition : DirectiveDef}
    (own : definition ∈ v.ownDirectives)
    {l : Location}
    (hl : l ∈ definition.locations) :
    l.isOutput = true := by
  have all : definition.locations.all Location.isOutput = true := by
    simp only [ownDirectives, List.mem_cons, List.not_mem_nil, or_false] at own
    rcases own with rfl | rfl | rfl | rfl | rfl <;> rfl
  exact List.all_eq_true.mp all l hl

theorem repeatable_of_mem_ownDirectives
    {definition : DirectiveDef}
    (own : definition ∈ v.ownDirectives) :
    definition.repeatable = false := by
  simp only [ownDirectives, List.mem_cons, List.not_mem_nil, or_false] at own
  rcases own with rfl | rfl | rfl | rfl | rfl <;> rfl

/-- What a lookup is written with. -/
theorem mem_arguments_resolverApplication
    {subgraphName : String}
    {selections : List Selection}
    {parameters : Table Parameter}
    {kind : ResolverKind}
    {a : Argument}
    (ha : a ∈ (v.resolverApplication subgraphName selections parameters kind).arguments) :
    a = ⟨ArgumentName.subgraph, .string subgraphName⟩ ∨
      a = ⟨ArgumentName.select, .string (Selection.setText selections)⟩ ∨
      a = ⟨ArgumentName.arguments, .list (parameters.items.map parameterValue)⟩ ∨
      a = ⟨ArgumentName.kind, .enum kind.enumValue⟩ := by
  simp only [resolverApplication, parameterArguments, kindArguments, List.mem_append,
    List.mem_cons, List.not_mem_nil, or_false] at ha
  split at ha <;> split at ha <;> simp only [List.mem_cons, List.not_mem_nil, or_false] at ha <;>
    tauto

theorem isNull_of_builds
    {d : Directive}
    (built : v.Builds d) :
    ∀ a ∈ d.arguments, a.value.isNull = false := by
  intro a ha
  cases built with
  | privateMark => cases ha
  | variableFromField | variableFromArgument | node =>
      simp only [variableFromField, variableFromArgument, nodeApplication, List.mem_cons,
        List.not_mem_nil, or_false] at ha
      rcases ha with rfl | rfl | rfl <;> rfl
  | resolver =>
      rcases mem_arguments_resolverApplication ha with rfl | rfl | rfl | rfl <;> rfl

end Vocabulary

namespace Target

variable {f g : Target} {v : Vocabulary} {templates : Templates}

namespace Composed

section Values

theorem conforms_string
    (h : Composed v templates f g)
    {t : FusionType}
    (scalar : t.isScalar = true)
    (s : String)
    (b : Bool) :
    g.schema.conforms (.string s) (.named (v.typeName t) b) = true := by
  have custom : (v.typeDef t).isCustomScalar = true := by
    cases t <;> first | rfl | cases scalar
  have defined : g.schema.type? (v.typeName t) = some (v.typeDef t) := h.types t
  simp [Schema.conforms, TypeRef.innermost, defined, Schema.takesString, custom]

theorem conforms_enumValue
    (h : Composed v templates f g)
    (k : ResolverKind)
    (b : Bool) :
    g.schema.conforms (.enum k.enumValue) (.named (v.typeName .resolverKind) b) = true := by
  have defined : g.schema.type? (v.typeName .resolverKind) = some v.resolverKind :=
    h.types .resolverKind
  have listed : Schema.takesEnum v.resolverKind k.enumValue = true := by
    cases k <;> rfl
  simp [Schema.conforms, TypeRef.innermost, defined, listed]

theorem conforms_parameterValue
    (h : Composed v templates f g)
    (p : Parameter)
    (b : Bool) :
    g.schema.conforms (Vocabulary.parameterValue p)
      (.named (v.typeName .argumentDefinition) b) = true := by
  have defined : g.schema.type? (v.typeName .argumentDefinition) = some v.argumentDefinition :=
    h.types .argumentDefinition
  have name : g.schema.conforms (.string p.name.text) (v.required .typeName) = true :=
    h.conforms_string rfl _ _
  have type : g.schema.conforms (.string p.type.text) (v.required .type) = true :=
    h.conforms_string rfl _ _
  have input : v.argumentDefinition.kind = .inputObject := rfl
  have foundName : lookup ArgumentName.name v.argumentDefinition.body.inputFields =
      some (.plain ArgumentName.name (v.required .typeName)) := rfl
  have foundType : lookup ArgumentName.type v.argumentDefinition.body.inputFields =
      some (.plain ArgumentName.type (v.required .type)) := rfl
  have complete : Schema.givesRequired v.argumentDefinition.body.inputFields
      [(ArgumentName.name, .string p.name.text), (ArgumentName.type, .string p.type.text)] = true :=
    rfl
  have fields : g.schema.conformFields v.argumentDefinition.body.inputFields []
      [(ArgumentName.name, .string p.name.text), (ArgumentName.type, .string p.type.text)] =
        true := by
    simp only [Schema.conformFields, foundName, foundType, InputValue.plain, name, type]
    decide
  simp only [Vocabulary.parameterValue, Schema.conforms, TypeRef.innermost, defined, input,
    complete, fields, beq_self_eq_true, Bool.and_true, Bool.or_true]

/-- A list of values of a type of the vocabulary. -/
theorem conforms_list
    (h : Composed v templates f g)
    {t : FusionType}
    {b c : Bool}
    {xs : List Value}
    (items : ∀ x ∈ xs, g.schema.conforms x (.named (v.typeName t) b) = true) :
    g.schema.conforms (.list xs) (.list (.named (v.typeName t) b) c) = true := by
  have defined : g.schema.type? (v.typeName t) = some (v.typeDef t) := h.types t
  simp only [Schema.conforms, TypeRef.innermost, defined, v.isInput_typeDef t, TypeRef.isList,
    TypeRef.item, Schema.conformAll_of_forall items, Bool.true_or, Bool.and_true]

end Values

/-- Whatever is built for the vocabulary fits a definition of its own. -/
theorem exists_own_of_builds
    (h : Composed v templates f g)
    {d : Directive}
    (built : v.Builds d) :
    ∃ definition ∈ v.ownDirectives, g.schema.Fits definition d ∧
      g.schema.argumentsConform definition d = true := by
  cases built with
  | privateMark =>
      exact ⟨v.privateDef, by simp [Vocabulary.ownDirectives], fits_privateApplication g v, rfl⟩
  | variableFromField s x field =>
      refine ⟨v.variableDef, by simp [Vocabulary.ownDirectives],
        h.fits_variable (Or.inl rfl) s x field.text, Schema.argumentsConform_of_lookup ?_⟩
      intro a ha
      simp only [Vocabulary.variableFromField, List.mem_cons, List.not_mem_nil, or_false] at ha
      rcases ha with rfl | rfl | rfl <;> exact ⟨_, rfl, h.conforms_string rfl _ _⟩
  | variableFromArgument s x a =>
      refine ⟨v.variableDef, by simp [Vocabulary.ownDirectives],
        h.fits_variable (Or.inr rfl) s x a, Schema.argumentsConform_of_lookup ?_⟩
      intro a ha
      simp only [Vocabulary.variableFromArgument, List.mem_cons, List.not_mem_nil, or_false] at ha
      rcases ha with rfl | rfl | rfl <;> exact ⟨_, rfl, h.conforms_string rfl _ _⟩
  | resolver s selections parameters kind =>
      refine ⟨v.resolverDef, by simp [Vocabulary.ownDirectives],
        h.fits_resolverApplication s selections parameters kind,
        Schema.argumentsConform_of_lookup ?_⟩
      intro a ha
      rcases Vocabulary.mem_arguments_resolverApplication ha with rfl | rfl | rfl | rfl
      · exact ⟨_, rfl, h.conforms_string rfl _ _⟩
      · exact ⟨_, rfl, h.conforms_string rfl _ _⟩
      · refine ⟨_, rfl, h.conforms_list ?_⟩
        intro x hx
        obtain ⟨p, -, rfl⟩ := List.mem_map.mp hx
        exact h.conforms_parameterValue p _
      · exact ⟨_, rfl, h.conforms_enumValue kind _⟩
  | node s typeNames =>
      refine ⟨v.nodeDef, by simp [Vocabulary.ownDirectives], h.fits_nodeApplication s typeNames,
        Schema.argumentsConform_of_lookup ?_⟩
      intro a ha
      simp only [Vocabulary.nodeApplication, List.mem_cons, List.not_mem_nil, or_false] at ha
      rcases ha with rfl | rfl
      · exact ⟨_, rfl, h.conforms_string rfl _ _⟩
      · refine ⟨_, rfl, h.conforms_list ?_⟩
        intro x hx
        obtain ⟨n, -, rfl⟩ := List.mem_map.mp hx
        exact h.conforms_string rfl _ _

/-- The composed schema takes whatever is built for its vocabulary, at every element that
the definition is for. -/
theorem takes_of_builds
    (h : Composed v templates f g)
    {x : Site}
    {d : Directive}
    (built : v.Builds d)
    (declared : g.schema.Declares x d.name) :
    g.schema.Takes x d := by
  obtain ⟨definition, own, fits, conforms⟩ := h.exists_own_of_builds built
  have defined : g.schema.directive? d.name = some definition := by
    rw [fits.named]
    exact h.ownDirectives definition own
  obtain ⟨p, definition', found, defined', listed⟩ := declared
  obtain rfl : definition = definition' := Option.some.inj (defined.symm.trans defined')
  have complete := Schema.argumentsComplete_of_covers fits.names (Vocabulary.isNull_of_builds built)
  have distinct : Schema.argumentsDistinct d = true := decide_eq_true fits.names.distinct
  refine ⟨⟨p, found, Vocabulary.isOutput_of_mem_ownDirectives own listed, ?_⟩, ?_⟩
  · simp [Schema.applicationFits, defined, listed, distinct, conforms, complete]
  · simp [Schema.isRepeatable, defined, Vocabulary.repeatable_of_mem_ownDirectives own]

end Composed

/-- **Merging subgraphs.**  Applications that are built for the vocabulary of a successful
composition, each for an element that its definition is for, can all be appended to the
composed schema.  If that was valid, it stays so exactly if each of them stands alone of
its name in the end, which depends on how many are given and on what the element had. -/
theorem merged_isValid_iff
    {r : Registration}
    (h : f.compose v templates = (g, .ok r))
    (valid : g.schema.isValid = true)
    {given : List (Site × Directive)}
    (built : ∀ a ∈ given, r.vocabulary.Builds a.2)
    (declared : ∀ a ∈ given, g.schema.Declares a.1 a.2.name) :
    ∃ s, g.schema.attachAll? given = some s ∧
      (∀ x n, s.count x n =
        g.schema.count x n + given.countP (fun a => a.1 = x ∧ a.2.name = n)) ∧
      (s.isValid = true ↔ ∀ a ∈ given, s.count a.1 a.2.name = 1) := by
  have composed := composed_of_compose h
  obtain ⟨-, rfl, -⟩ := stages_of_compose h
  obtain ⟨s, attached, counts, iff⟩ := Schema.isValid_attachAll fun a ha =>
    composed.takes_of_builds (built a ha) (declared a ha)
  exact ⟨s, attached, counts, iff.trans (and_iff_right valid)⟩

section Samples

/-- The type of queries. -/
def queryType : Name :=
  OperationKind.query.defaultRoot

/-- A field for queries. -/
def queryField : Name :=
  ⟨"a", by decide⟩

/-- A schema in which there is one field to query, of a scalar type. -/
def oneField (scalar : Name) : Schema :=
  { BuiltIn.schema.put (.type
      { description := none
        name := queryType
        builtIn := false
        directives := []
        body := .object .empty
          (Table.empty.put
            ⟨.definition, ⟨none, queryField, [], .named scalar false, []⟩⟩) }) with
    definition := { SchemaDef.empty with query := some ⟨.definition, queryType⟩ } }

/-- A schema composed without a prefix. -/
def composedBare (s : Schema) : Target :=
  ((ofSchema s).compose .bare .builtIn).1

/-- The schema with one field, composed. -/
def composedField : Target :=
  composedBare (oneField BuiltIn.int)

/-- What is built for one subgraph: a lookup of entities by their id, and a variable and a
mark on the field. -/
def oneSubgraph : List (Site × Directive) :=
  [ (.schema, Vocabulary.bare.nodeApplication "a" [queryType]),
    (.field queryType queryField, Vocabulary.bare.variableFromArgument "a" "x" "y"),
    (.field queryType queryField, Vocabulary.bare.privateApplication) ]

/-- What is built for two subgraphs: a lookup of entities by their id for each. -/
def twoSubgraphs : List (Site × Directive) :=
  [ (.schema, Vocabulary.bare.nodeApplication "a" [queryType]),
    (.schema, Vocabulary.bare.nodeApplication "b" [queryType]) ]

theorem compose_oneField :
    (ofSchema (oneField BuiltIn.int)).compose .bare .builtIn =
      (composedField, .ok ⟨.bare, Vocabulary.bare.placeholders⟩) :=
  Prod.ext rfl rfl

theorem isValid_composedField :
    composedField.schema.isValid = true := by
  decide +kernel

/-- One subgraph leaves the schema valid. -/
theorem one_subgraph_isValid :
    ∃ s, composedField.schema.attachAll? oneSubgraph = some s ∧ s.isValid = true := by
  have built : ∀ a ∈ oneSubgraph, Vocabulary.bare.Builds a.2 := by
    simp only [oneSubgraph, List.forall_mem_cons]
    exact ⟨.node _ _, .variableFromArgument _ _ _, .privateMark, fun _ h => by cases h⟩
  have declared : ∀ a ∈ oneSubgraph, composedField.schema.Declares a.1 a.2.name := by
    simp only [oneSubgraph, List.forall_mem_cons]
    exact ⟨⟨_, _, rfl, rfl, by decide⟩, ⟨_, _, rfl, rfl, by decide⟩,
      ⟨_, _, rfl, rfl, by decide⟩, fun _ h => by cases h⟩
  obtain ⟨s, attached, counts, iff⟩ :=
    merged_isValid_iff compose_oneField isValid_composedField built declared
  refine ⟨s, attached, iff.mpr ?_⟩
  simp only [counts]
  decide

/-- Lookups by their id for two subgraphs do not: each is built for the vocabulary and
given to the schema, which its definition is for, but the definition is not repeatable. -/
theorem two_subgraphs_not_isValid :
    (ofSchema (oneField BuiltIn.int)).compose .bare .builtIn =
        (composedField, .ok ⟨.bare, Vocabulary.bare.placeholders⟩) ∧
      composedField.schema.isValid = true ∧
      (∀ a ∈ twoSubgraphs,
        Vocabulary.bare.Builds a.2 ∧ composedField.schema.Declares a.1 a.2.name) ∧
      ∃ s, composedField.schema.attachAll? twoSubgraphs = some s ∧
        s.count .schema (Vocabulary.bare.directiveName .node) = 2 ∧
        s.isRepeatable (Vocabulary.bare.directiveName .node) = false ∧
        s.isValid = false := by
  refine ⟨compose_oneField, isValid_composedField, ?_, _, rfl, rfl, rfl, by decide +kernel⟩
  simp only [twoSubgraphs, List.forall_mem_cons]
  exact ⟨⟨.node _ _, _, _, rfl, rfl, by decide⟩, ⟨.node _ _, _, _, rfl, rfl, by decide⟩,
    fun _ h => by cases h⟩

end Samples

end Target

end Supergraph
