import Supergraph.Fusion.Application
import Supergraph.Proofs.Composition.Success
import Mathlib.Logic.Basic

/-!
# Applications fit their definitions

What the functions of the vocabulary build is applied to schemas whose definitions
come from the registry; the two are written apart.  A composition that succeeded has
put the definitions in, and each application that is built for its vocabulary fits
them (`applications_fit`): the arguments are declared, those that may not be null are
given, and all values are of the declared types as the composed schema defines them.
-/

namespace Supergraph

namespace BuiltIn

/-- A scalar of the language takes this value. -/
def takes (n : Name) : Value → Bool
  | .boolean _ => n == boolean
  | .int l =>
      n == int && Number.fitsInt32 l.text.toList
        || n == float && Number.fitsDouble l.text.toList
        || n == id
  | .float l => n == float && Number.fitsDouble l.text.toList
  | .string _ => n == string || n == id
  | _ => false

end BuiltIn

section Typing

/-- These are names that parameters may be given under: none of them twice, all of
them declared, and none left out whose parameter may not be null. -/
structure Covers (parameters : List InputValue) (names : List Name) : Prop where
  distinct : names.Nodup
  declared : ∀ n ∈ names, n ∈ parameters.map InputValue.name
  complete : ∀ p ∈ parameters, p.type.isNonNull = true → p.name ∈ names

/-- The schema has a scalar of this name. -/
def Schema.HasScalar (s : Schema) (n : Name) : Prop :=
  ∃ d, s.type? n = some d ∧ d.kind = .scalar

/-- The value is of the type that is referred to, as the schema defines it. -/
inductive Schema.HasType (s : Schema) : Value → TypeRef → Prop
  | null
      {t : TypeRef}
      (nullable : t.isNonNull = false) :
      HasType s .null t
  | language
      {x : Value}
      {n : Name}
      {b : Bool}
      (scalar : s.HasScalar n)
      (takes : BuiltIn.takes n x = true) :
      HasType s x (.named n b)
  | custom
      {x : Value}
      {n : Name}
      {b : Bool}
      (scalar : s.HasScalar n)
      (own : n ∉ BuiltIn.scalarNames)
      (given : x.isNull = false) :
      HasType s x (.named n b)
  | enum
      {k n : Name}
      {b : Bool}
      {d : TypeDef}
      (defined : s.type? n = some d)
      (value : k ∈ d.body.values.map EnumValue.name) :
      HasType s (.enum k) (.named n b)
  | list
      {xs : List Value}
      {t : TypeRef}
      {b : Bool}
      (items : ∀ x ∈ xs, HasType s x t) :
      HasType s (.list xs) (.list t b)
  | object
      {fs : List (Name × Value)}
      {n : Name}
      {b : Bool}
      {d : TypeDef}
      (defined : s.type? n = some d)
      (input : d.kind = .inputObject)
      (names : Covers d.body.inputFields (fs.map Prod.fst))
      (fields : ∀ x ∈ fs, ∀ p ∈ d.body.inputFields, p.name = x.1 → HasType s x.2 p.type) :
      HasType s (.object fs) (.named n b)

/-- The application fits the definition of its directive: the names of its arguments
cover the declared ones, and each of its values is of the declared type. -/
structure Schema.Fits (s : Schema) (definition : DirectiveDef) (d : Directive) : Prop where
  named : d.name = definition.name
  names : Covers definition.arguments (d.arguments.map Argument.name)
  values : ∀ a ∈ d.arguments, ∀ p ∈ definition.arguments,
    p.name = a.name → s.HasType a.value p.type

/-- The schema defines the directive, and the application fits the definition. -/
def Schema.Accepts (s : Schema) (d : Directive) : Prop :=
  ∃ definition, s.directive? d.name = some definition ∧ s.Fits definition d

end Typing

section Parameters

/-- For names that are known, it is a matter of lists. -/
theorem Covers.of_names
    {parameters : List InputValue}
    {given : List Name}
    (names declared required : List Name)
    (hnames : given = names)
    (hdeclared : parameters.map InputValue.name = declared)
    (hrequired : (parameters.filter (fun p => p.type.isNonNull)).map InputValue.name = required)
    (distinct : names.Nodup)
    (sub : ∀ n ∈ names, n ∈ declared)
    (complete : ∀ n ∈ required, n ∈ names) :
    Covers parameters given where
  distinct := by rwa [hnames]
  declared := by rwa [hnames, hdeclared]
  complete := by
    intro p hp nonNull
    rw [hnames]
    refine complete p.name ?_
    rw [← hrequired]
    exact List.mem_map_of_mem (List.mem_filter.mpr ⟨hp, nonNull⟩)

/-- If the parameters have distinct names, the one that is found is the only one of
its name. -/
theorem forall_of_lookup
    {parameters : List InputValue}
    {n : Name}
    {p : InputValue}
    {P : TypeRef → Prop}
    (distinct : (parameters.map InputValue.name).Nodup)
    (found : lookup n parameters = some p)
    (holds : P p.type) :
    ∀ q ∈ parameters, q.name = n → P q.type := by
  intro q hq hqn
  have hp : p ∈ parameters := List.mem_of_find?_eq_some found
  have hpn : p.name = n := beq_iff_eq.mp (List.find?_some (p := fun x => key x == n) found)
  obtain rfl : q = p := List.inj_on_of_nodup_map distinct hq hp (hqn.trans hpn.symm)
  exact holds

/-- An application fits if its names do and each of its values is of the type of the
parameter that is found for it. -/
theorem Schema.Fits.of_names
    {s : Schema}
    {definition : DirectiveDef}
    {d : Directive}
    (names declared required : List Name)
    (named : d.name = definition.name)
    (hnames : d.arguments.map Argument.name = names)
    (hdeclared : definition.arguments.map InputValue.name = declared)
    (hrequired :
      (definition.arguments.filter (fun p => p.type.isNonNull)).map InputValue.name = required)
    (distinct : names.Nodup ∧ declared.Nodup)
    (sub : ∀ n ∈ names, n ∈ declared)
    (complete : ∀ n ∈ required, n ∈ names)
    (values : ∀ a ∈ d.arguments,
      ∃ p, lookup a.name definition.arguments = some p ∧ s.HasType a.value p.type) :
    s.Fits definition d where
  named := named
  names := Covers.of_names names declared required hnames hdeclared hrequired distinct.1 sub complete
  values := by
    intro a ha
    obtain ⟨p, found, holds⟩ := values a ha
    exact forall_of_lookup (by rw [hdeclared]; exact distinct.2) found holds

end Parameters

namespace Vocabulary

/-- The applications that the functions of the vocabulary build, whatever they are
given. -/
inductive Builds (v : Vocabulary) : Directive → Prop
  | privateMark :
      Builds v v.privateApplication
  | variableFromField
      (subgraphName variableName : String)
      (field : Selection) :
      Builds v (v.variableFromField subgraphName variableName field)
  | variableFromArgument
      (subgraphName variableName argumentName : String) :
      Builds v (v.variableFromArgument subgraphName variableName argumentName)
  | resolver
      (subgraphName : String)
      (selections : List Selection)
      (parameters : Table Parameter)
      (kind : ResolverKind) :
      Builds v (v.resolverApplication subgraphName selections parameters kind)
  | node
      (subgraphName : String)
      (typeNames : List Name) :
      Builds v (v.nodeApplication subgraphName typeNames)

/-- The application gives the first argument and does not give the second. -/
def TakesFrom (d : Directive) (source other : Name) : Prop :=
  source ∈ d.arguments.map Argument.name ∧ other ∉ d.arguments.map Argument.name

/-- Each function builds applications of one directive, whatever it is given, and a variable
has exactly one source of its value: a selection from a field, or an argument. -/
structure BuildsOwn (v : Vocabulary) : Prop where
  privateMark : v.privateApplication.name = v.directiveName .privateMark
  variableFromField : ∀ subgraphName variableName field,
    (v.variableFromField subgraphName variableName field).name =
      v.directiveName .variableBinding
  variableFromArgument : ∀ subgraphName variableName argumentName,
    (v.variableFromArgument subgraphName variableName argumentName).name =
      v.directiveName .variableBinding
  resolver : ∀ subgraphName selections parameters kind,
    (v.resolverApplication subgraphName selections parameters kind).name =
      v.directiveName .resolver
  node : ∀ subgraphName typeNames,
    (v.nodeApplication subgraphName typeNames).name = v.directiveName .node
  fieldSource : ∀ subgraphName variableName field,
    TakesFrom (v.variableFromField subgraphName variableName field)
      ArgumentName.select ArgumentName.argument
  argumentSource : ∀ subgraphName variableName argumentName,
    TakesFrom (v.variableFromArgument subgraphName variableName argumentName)
      ArgumentName.argument ArgumentName.select

theorem buildsOwn
    (v : Vocabulary) :
    v.BuildsOwn := by
  have selects : ArgumentName.select ∈
        [ArgumentName.subgraph, ArgumentName.name, ArgumentName.select] ∧
      ArgumentName.argument ∉
        [ArgumentName.subgraph, ArgumentName.name, ArgumentName.select] := by
    decide
  have binds : ArgumentName.argument ∈
        [ArgumentName.subgraph, ArgumentName.name, ArgumentName.argument] ∧
      ArgumentName.select ∉
        [ArgumentName.subgraph, ArgumentName.name, ArgumentName.argument] := by
    decide
  exact ⟨rfl, fun _ _ _ => rfl, fun _ _ _ => rfl, fun _ _ _ _ => rfl, fun _ _ => rfl,
    fun _ _ _ => selects, fun _ _ _ => binds⟩

end Vocabulary

namespace FusionType

/-- The type is a scalar. -/
def isScalar : FusionType → Bool
  | .argumentDefinition => false
  | .resolverKind => false
  | _ => true

end FusionType

namespace Target
namespace Composed

variable {v : Vocabulary} {templates : Templates} {f g : Target}

section Values

/-- A scalar of the vocabulary takes every string. -/
theorem hasType_string
    (h : Composed v templates f g)
    {t : FusionType}
    (scalar : t.isScalar = true)
    (s : String)
    (b : Bool) :
    g.schema.HasType (.string s) (.named (v.typeName t) b) := by
  refine .custom ⟨v.typeDef t, h.types t, ?_⟩ ?_ rfl
  · cases t <;> first | rfl | cases scalar
  · intro language
    exact Vocabulary.not_mem_typeNames_of_scalar language (v.typeName_mem t)

theorem hasType_enumValue
    (h : Composed v templates f g)
    (k : ResolverKind)
    (b : Bool) :
    g.schema.HasType (.enum k.enumValue) (.named (v.typeName .resolverKind) b) := by
  refine .enum (h.types .resolverKind) ?_
  show k.enumValue ∈ ResolverKind.all.map ResolverKind.enumValue
  cases k <;> decide

/-- The description of an argument gives the fields of the input object, both of
them. -/
theorem hasType_parameterValue
    (h : Composed v templates f g)
    (p : Parameter)
    (b : Bool) :
    g.schema.HasType (Vocabulary.parameterValue p)
      (.named (v.typeName .argumentDefinition) b) := by
  refine .object (h.types .argumentDefinition) rfl ?_ ?_
  · exact Covers.of_names [ArgumentName.name, ArgumentName.type]
      [ArgumentName.name, ArgumentName.type] [ArgumentName.name, ArgumentName.type]
      rfl rfl rfl (by decide) (by decide) (by decide)
  · have distinct : [ArgumentName.name, ArgumentName.type].Nodup := by decide
    intro x hx
    simp only [List.mem_cons, List.not_mem_nil, or_false] at hx
    rcases hx with rfl | rfl
    · exact forall_of_lookup distinct rfl (h.hasType_string rfl _ _)
    · exact forall_of_lookup distinct rfl (h.hasType_string rfl _ _)

end Values

section Applications

open ArgumentName

theorem fits_privateApplication
    (g : Target)
    (v : Vocabulary) :
    g.schema.Fits v.privateDef v.privateApplication := by
  refine .of_names [] [] [] rfl rfl rfl rfl (by decide) (by decide) (by decide) ?_
  intro a ha
  cases ha

/-- A variable fits, whichever of the two sources its value is taken from. -/
theorem fits_variable
    (h : Composed v templates f g)
    {source : Name}
    (hsource : source = select ∨ source = argument)
    (subgraphName variableName text : String) :
    g.schema.Fits v.variableDef
      ⟨v.directiveName .variableBinding,
        [⟨subgraph, .string subgraphName⟩, ⟨name, .string variableName⟩,
          ⟨source, .string text⟩]⟩ := by
  have distinct : [subgraph, name, source].Nodup ∧ [name, select, argument, subgraph].Nodup := by
    rcases hsource with rfl | rfl <;> decide
  have sub : ∀ n ∈ [subgraph, name, source], n ∈ [name, select, argument, subgraph] := by
    rcases hsource with rfl | rfl <;> decide
  refine .of_names [subgraph, name, source] [name, select, argument, subgraph] [name, subgraph]
    rfl rfl rfl rfl distinct sub (by simp) ?_
  intro a ha
  simp only [List.mem_cons, List.not_mem_nil, or_false] at ha
  rcases ha with rfl | rfl | rfl
  · exact ⟨_, rfl, h.hasType_string rfl _ _⟩
  · exact ⟨_, rfl, h.hasType_string rfl _ _⟩
  · rcases hsource with rfl | rfl
    · exact ⟨_, rfl, h.hasType_string rfl _ _⟩
    · exact ⟨_, rfl, h.hasType_string rfl _ _⟩

/-- The entities are listed by name, item by item. -/
theorem fits_nodeApplication
    (h : Composed v templates f g)
    (subgraphName : String)
    (typeNames : List Name) :
    g.schema.Fits v.nodeDef (v.nodeApplication subgraphName typeNames) := by
  refine .of_names [subgraph, ArgumentName.types] [subgraph, ArgumentName.types]
    [subgraph, ArgumentName.types] rfl rfl rfl rfl (by decide) (by decide) (by decide) ?_
  intro a ha
  simp only [Vocabulary.nodeApplication, List.mem_cons, List.not_mem_nil, or_false] at ha
  rcases ha with rfl | rfl
  · exact ⟨_, rfl, h.hasType_string rfl _ _⟩
  · refine ⟨_, rfl, .list ?_⟩
    intro x hx
    obtain ⟨n, _, rfl⟩ := List.mem_map.mp hx
    exact h.hasType_string rfl _ _

/-- The names that a lookup may be written with: its arguments and its kind are given
or left out, each on its own. -/
def resolverNames : List (List Name) :=
  [ [subgraph, select],
    [subgraph, select, ArgumentName.kind],
    [subgraph, select, arguments],
    [subgraph, select, arguments, ArgumentName.kind] ]

theorem names_mem_resolverNames
    (v : Vocabulary)
    (subgraphName : String)
    (selections : List Selection)
    (parameters : Table Parameter)
    (kind : ResolverKind) :
    (v.resolverApplication subgraphName selections parameters kind).arguments.map
      Argument.name ∈ resolverNames := by
  have given : (Vocabulary.parameterArguments parameters).map Argument.name = [] ∨
      (Vocabulary.parameterArguments parameters).map Argument.name = [arguments] := by
    unfold Vocabulary.parameterArguments
    split
    · exact Or.inl rfl
    · exact Or.inr rfl
  have kinds : (Vocabulary.kindArguments kind).map Argument.name = [] ∨
      (Vocabulary.kindArguments kind).map Argument.name = [ArgumentName.kind] := by
    cases kind
    · exact Or.inl rfl
    · exact Or.inr rfl
    · exact Or.inr rfl
  rw [Vocabulary.resolverApplication, List.map_append, List.map_append]
  rcases given with given | given <;> rcases kinds with kinds | kinds <;> rw [given, kinds] <;>
    simp [resolverNames]

theorem fits_resolverApplication
    (h : Composed v templates f g)
    (subgraphName : String)
    (selections : List Selection)
    (parameters : Table Parameter)
    (kind : ResolverKind) :
    g.schema.Fits v.resolverDef
      (v.resolverApplication subgraphName selections parameters kind) := by
  have lists : ∀ names ∈ resolverNames,
      (names.Nodup ∧ [select, subgraph, arguments, ArgumentName.kind].Nodup) ∧
        (∀ n ∈ names, n ∈ [select, subgraph, arguments, ArgumentName.kind]) ∧
        ∀ n ∈ [select, subgraph], n ∈ names := by
    decide
  obtain ⟨distinct, sub, complete⟩ :=
    lists _ (names_mem_resolverNames v subgraphName selections parameters kind)
  refine .of_names _ _ _ rfl rfl rfl rfl distinct sub complete ?_
  intro a ha
  rw [Vocabulary.resolverApplication, List.mem_append, List.mem_append] at ha
  rcases ha with (ha | ha) | ha
  · simp only [List.mem_cons, List.not_mem_nil, or_false] at ha
    rcases ha with rfl | rfl
    · exact ⟨_, rfl, h.hasType_string rfl _ _⟩
    · exact ⟨_, rfl, h.hasType_string rfl _ _⟩
  · unfold Vocabulary.parameterArguments at ha
    split at ha
    · cases ha
    · obtain rfl := List.mem_singleton.mp ha
      refine ⟨_, rfl, .list ?_⟩
      intro x hx
      obtain ⟨p, _, rfl⟩ := List.mem_map.mp hx
      exact h.hasType_parameterValue p _
  · unfold Vocabulary.kindArguments at ha
    split at ha
    · cases ha
    · obtain rfl := List.mem_singleton.mp ha
      exact ⟨_, rfl, h.hasType_enumValue kind _⟩

/-- The record of the configuration, with or without a prefix. -/
theorem fits_rootApplication
    (h : Composed v templates f g) :
    g.schema.Fits v.rootDef v.rootApplication := by
  have hasVersion : g.schema.HasType (.int Vocabulary.formatVersion) (.named BuiltIn.int false) :=
    .language (h.scalars _ (by decide)) rfl
  obtain ⟨q, b, hb⟩ := v
  cases q with
  | none =>
      refine .of_names [version] [qualifier, qualifyRoot, version] []
        rfl rfl rfl rfl (by decide) (by decide) (by decide) ?_
      intro a ha
      obtain rfl := List.mem_singleton.mp ha
      exact ⟨_, rfl, hasVersion⟩
  | some q =>
      refine .of_names [qualifier, qualifyRoot, version] [qualifier, qualifyRoot, version] []
        rfl rfl rfl rfl (by decide) (by decide) (by decide) ?_
      intro a ha
      simp only [Vocabulary.rootApplication, List.mem_append, List.mem_cons, List.not_mem_nil,
        or_false] at ha
      rcases ha with (rfl | rfl) | rfl
      · exact ⟨_, rfl, h.hasType_string rfl _ _⟩
      · exact ⟨_, rfl, .language (h.scalars _ (by decide)) rfl⟩
      · exact ⟨_, rfl, hasVersion⟩

end Applications

end Composed

section Agreement

variable {f g : Target} {v : Vocabulary} {templates : Templates}

theorem Composed.accepts
    (h : Composed v templates f g)
    {definition : DirectiveDef}
    {d : Directive}
    (own : definition ∈ v.ownDirectives)
    (fits : g.schema.Fits definition d) :
    g.schema.Accepts d := by
  refine ⟨definition, ?_, fits⟩
  rw [fits.named]
  exact h.ownDirectives definition own

theorem Composed.accepts_of_builds
    (h : Composed v templates f g)
    {d : Directive}
    (built : v.Builds d) :
    g.schema.Accepts d := by
  cases built with
  | privateMark =>
      exact h.accepts (by simp [Vocabulary.ownDirectives]) (fits_privateApplication g v)
  | variableFromField s x field =>
      exact h.accepts (by simp [Vocabulary.ownDirectives]) (h.fits_variable (Or.inl rfl) s x field.text)
  | variableFromArgument s x a =>
      exact h.accepts (by simp [Vocabulary.ownDirectives]) (h.fits_variable (Or.inr rfl) s x a)
  | resolver s selections parameters kind =>
      exact h.accepts (by simp [Vocabulary.ownDirectives])
        (h.fits_resolverApplication s selections parameters kind)
  | node s typeNames =>
      exact h.accepts (by simp [Vocabulary.ownDirectives]) (h.fits_nodeApplication s typeNames)

/-- The only application of the root directive is the one that records the
configuration. -/
theorem Composed.mem_applications_iff
    (h : Composed v templates f g)
    {d : Directive}
    (root : d.name = v.directiveName .root) :
    d ∈ g.schema.definition.applications ↔ d = v.rootApplication := by
  rw [h.definition, SchemaDef.applications, List.map_append, List.mem_append]
  constructor
  · rintro (hd | hd)
    · obtain ⟨a, ha, rfl⟩ := List.mem_map.mp hd
      simp [root] at ha
    · exact List.mem_singleton.mp hd
  · rintro rfl
    exact Or.inr (List.mem_singleton.mpr rfl)

/-- **Applications fit their definitions.**  After a composition that succeeded, with
whatever templates, every application that is built for its vocabulary fits a
definition in the composed schema; so does every application of the root directive
on the schema, and there is one.  Each function builds applications of the directive
that it is for, and those for variables have one of the two sources of a value. -/
theorem applications_fit
    {r : Registration}
    (h : f.compose v templates = (g, .ok r)) :
    (∀ d, r.vocabulary.Builds d → g.schema.Accepts d) ∧
      (∃ d ∈ g.schema.definition.applications, d.name = r.vocabulary.directiveName .root) ∧
      (∀ d ∈ g.schema.definition.applications,
        d.name = r.vocabulary.directiveName .root → g.schema.Accepts d) ∧
      r.vocabulary.BuildsOwn := by
  have composed := composed_of_compose h
  obtain ⟨-, rfl, -⟩ := stages_of_compose h
  refine ⟨fun d => composed.accepts_of_builds, ?_, ?_, v.buildsOwn⟩
  · exact ⟨v.rootApplication, (composed.mem_applications_iff rfl).mpr rfl, rfl⟩
  · intro d hd root
    obtain rfl := (composed.mem_applications_iff root).mp hd
    exact composed.accepts (by simp [Vocabulary.ownDirectives]) composed.fits_rootApplication

/-- A batch lookup with one argument fits, where the composition is without a prefix
and with the built-in templates. -/
theorem batch_lookup_fits :
    ((ofSchema BuiltIn.schema).compose .bare .builtIn).2 =
        .ok ⟨.bare, Vocabulary.bare.placeholders⟩ ∧
      ((ofSchema BuiltIn.schema).compose .bare .builtIn).1.schema.Accepts
        (Vocabulary.bare.resolverApplication "products" []
          (Table.empty.put ⟨ArgumentName.name, BuiltIn.required BuiltIn.id⟩) .batch) := by
  have composed : ((ofSchema BuiltIn.schema).compose .bare .builtIn).2 =
      .ok ⟨.bare, Vocabulary.bare.placeholders⟩ := rfl
  exact ⟨composed, (applications_fit (Prod.ext rfl composed)).1 _ (.resolver _ _ _ _)⟩

end Agreement

end Target

end Supergraph
