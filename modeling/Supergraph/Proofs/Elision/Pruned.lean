import Supergraph.Proofs.Elision
import Mathlib.Data.List.Forall2

/-!
# What elision removes, and that it removes nothing else

A part of a schema is *pruned* if the hidden applications are gone from its lists and all
else is as it was; there is one relation for each kind of part, which says so for every
datum.  A schema is what a target prunes to if the marked types and directive definitions
are gone as well.  Elision is the one way to do this (`prunes_iff`), and afterwards nothing
is left to remove (`elision_is_exact`).
-/

namespace Supergraph

section Pruned

/-- These are the applications that are not hidden. -/
def Directive.PrunedList (hidden : Hidden) (ds es : List Directive) : Prop :=
  es = ds.filter (fun d => !hidden d.name)

/-- These are the applications that are not hidden, each from the place it came from. -/
def Directive.PrunedSourced (hidden : Hidden) (ds es : List (Sourced Directive)) : Prop :=
  es = ds.filter (fun d => !hidden d.item.name)

/-- The argument or input field without hidden applications. -/
structure InputValue.Pruned (hidden : Hidden) (v w : InputValue) : Prop where
  description : w.description = v.description
  name : w.name = v.name
  type : w.type = v.type
  default : w.default = v.default
  directives : Directive.PrunedList hidden v.directives w.directives

/-- The field without hidden applications on it or on its arguments. -/
structure Field.Pruned (hidden : Hidden) (f g : Field) : Prop where
  description : g.description = f.description
  name : g.name = f.name
  arguments : List.Forall₂ (InputValue.Pruned hidden) f.arguments g.arguments
  type : g.type = f.type
  directives : Directive.PrunedList hidden f.directives g.directives

/-- The enum value without hidden applications. -/
structure EnumValue.Pruned (hidden : Hidden) (v w : EnumValue) : Prop where
  description : w.description = v.description
  name : w.name = v.name
  directives : Directive.PrunedList hidden v.directives w.directives

/-- The contents without hidden applications on any part. -/
inductive TypeBody.Pruned (hidden : Hidden) : TypeBody → TypeBody → Prop
  | scalar :
      Pruned hidden .scalar .scalar
  | object
      (interfaces : Table (Sourced Name))
      {fs gs : Table (Sourced Field)}
      (fields : List.Forall₂ (Sourced.Lift (Field.Pruned hidden)) fs.items gs.items) :
      Pruned hidden (.object interfaces fs) (.object interfaces gs)
  | interface
      (interfaces : Table (Sourced Name))
      {fs gs : Table (Sourced Field)}
      (fields : List.Forall₂ (Sourced.Lift (Field.Pruned hidden)) fs.items gs.items) :
      Pruned hidden (.interface interfaces fs) (.interface interfaces gs)
  | union
      (members : Table (Sourced Name)) :
      Pruned hidden (.union members) (.union members)
  | enum
      {vs ws : Table (Sourced EnumValue)}
      (values : List.Forall₂ (Sourced.Lift (EnumValue.Pruned hidden)) vs.items ws.items) :
      Pruned hidden (.enum vs) (.enum ws)
  | inputObject
      {fs gs : Table (Sourced InputValue)}
      (fields : List.Forall₂ (Sourced.Lift (InputValue.Pruned hidden)) fs.items gs.items) :
      Pruned hidden (.inputObject fs) (.inputObject gs)

/-- The type without hidden applications on it or on any part. -/
structure TypeDef.Pruned (hidden : Hidden) (t u : TypeDef) : Prop where
  description : u.description = t.description
  name : u.name = t.name
  builtIn : u.builtIn = t.builtIn
  directives : Directive.PrunedSourced hidden t.directives u.directives
  body : t.body.Pruned hidden u.body

/-- The directive definition without hidden applications on its arguments. -/
structure DirectiveDef.Pruned (hidden : Hidden) (d e : DirectiveDef) : Prop where
  description : e.description = d.description
  name : e.name = d.name
  arguments : List.Forall₂ (InputValue.Pruned hidden) d.arguments e.arguments
  repeatable : e.repeatable = d.repeatable
  locations : e.locations = d.locations
  builtIn : e.builtIn = d.builtIn

/-- The schema definition without hidden applications. -/
structure SchemaDef.Pruned (hidden : Hidden) (d e : SchemaDef) : Prop where
  description : e.description = d.description
  directives : Directive.PrunedSourced hidden d.directives e.directives
  query : e.query = d.query
  mutation : e.mutation = d.mutation
  subscription : e.subscription = d.subscription

/-- The schema is that of the target without the marked types and directive definitions, in
order, and without applications of marked directives. -/
structure Target.Prunes (f : Target) (s : Schema) : Prop where
  definition : f.schema.definition.Pruned f.isMarkedDirective s.definition
  directives :
    List.Forall₂ (DirectiveDef.Pruned f.isMarkedDirective)
      (f.schema.directives.items.filter (fun d => !f.isMarkedDirective d.name))
      s.directives.items
  types :
    List.Forall₂ (TypeDef.Pruned f.isMarkedDirective)
      (f.schema.types.items.filter (fun t => !f.isMarkedType t.name))
      s.types.items
  introspection : s.introspection = f.schema.introspection.filter (fun n => !f.isMarkedType n)

end Pruned

section Unique

variable {hidden : Hidden}

/-- If the partner of each is computed, so are the partners of all. -/
theorem forall₂_iff_eq_map
    {α : Type}
    {R : α → α → Prop}
    {f : α → α}
    (h : ∀ x y, R x y ↔ y = f x)
    (xs ys : List α) :
    List.Forall₂ R xs ys ↔ ys = xs.map f := by
  have same : R = fun x y => f x = y := by
    funext x y
    exact propext ((h x y).trans eq_comm)
  rw [same, ← List.forall₂_map_left_iff, List.forall₂_eq_eq_eq, eq_comm]

/-- What is computed from a part is computed from it in its place. -/
theorem Sourced.lift_iff_eq
    {α : Type}
    {R : α → α → Prop}
    {f : α → α}
    (h : ∀ x y, R x y ↔ y = f x)
    (x y : Sourced α) :
    Sourced.Lift R x y ↔ y = ⟨x.origin, f x.item⟩ := by
  obtain ⟨o, y⟩ := y
  rw [Sourced.Lift, h]
  simp

theorem InputValue.pruned_iff
    (v w : InputValue) :
    v.Pruned hidden w ↔ w = v.elide hidden := by
  constructor
  · obtain ⟨description, name, type, default, directives⟩ := w
    rintro ⟨rfl, rfl, rfl, rfl, rfl⟩
    rfl
  · rintro rfl
    exact ⟨rfl, rfl, rfl, rfl, rfl⟩

theorem Field.pruned_iff
    (f g : Field) :
    f.Pruned hidden g ↔ g = f.elide hidden := by
  have arguments := forall₂_iff_eq_map (@InputValue.pruned_iff hidden)
  constructor
  · obtain ⟨description, name, as, type, directives⟩ := g
    rintro ⟨rfl, rfl, has, rfl, rfl⟩
    obtain rfl := (arguments _ _).mp has
    rfl
  · rintro rfl
    exact ⟨rfl, rfl, (arguments _ _).mpr rfl, rfl, rfl⟩

theorem EnumValue.pruned_iff
    (v w : EnumValue) :
    v.Pruned hidden w ↔ w = v.elide hidden := by
  constructor
  · obtain ⟨description, name, directives⟩ := w
    rintro ⟨rfl, rfl, rfl⟩
    rfl
  · rintro rfl
    exact ⟨rfl, rfl, rfl⟩

/-- Members that are related one by one to those of a table are the computed ones. -/
theorem Table.eq_mapValues_of_forall₂
    {α : Type}
    [Keyed α]
    {R : Sourced α → Sourced α → Prop}
    {f : Sourced α → Sourced α}
    {hf : ∀ x, key (f x) = key x}
    (h : ∀ x y, R x y ↔ y = f x)
    {xs ys : Table (Sourced α)}
    (all : List.Forall₂ R xs.items ys.items) :
    ys = xs.mapValues f hf :=
  Table.ext ((forall₂_iff_eq_map h _ _).mp all)

theorem TypeBody.pruned_iff
    (b c : TypeBody) :
    b.Pruned hidden c ↔ c = b.elide hidden := by
  have fields := Sourced.lift_iff_eq (@Field.pruned_iff hidden)
  have values := Sourced.lift_iff_eq (@EnumValue.pruned_iff hidden)
  have inputFields := Sourced.lift_iff_eq (@InputValue.pruned_iff hidden)
  constructor
  · intro h
    cases h with
    | scalar => rfl
    | object interfaces h =>
        exact congrArg (TypeBody.object interfaces) (Table.eq_mapValues_of_forall₂ fields h)
    | interface interfaces h =>
        exact congrArg (TypeBody.interface interfaces) (Table.eq_mapValues_of_forall₂ fields h)
    | union members => rfl
    | enum h => exact congrArg TypeBody.enum (Table.eq_mapValues_of_forall₂ values h)
    | inputObject h =>
        exact congrArg TypeBody.inputObject (Table.eq_mapValues_of_forall₂ inputFields h)
  · rintro rfl
    cases b with
    | scalar => exact .scalar
    | object interfaces fs => exact .object interfaces ((forall₂_iff_eq_map fields _ _).mpr rfl)
    | interface interfaces fs =>
        exact .interface interfaces ((forall₂_iff_eq_map fields _ _).mpr rfl)
    | union members => exact .union members
    | enum vs => exact .enum ((forall₂_iff_eq_map values _ _).mpr rfl)
    | inputObject fs => exact .inputObject ((forall₂_iff_eq_map inputFields _ _).mpr rfl)

theorem TypeDef.pruned_iff
    (t u : TypeDef) :
    t.Pruned hidden u ↔ u = t.elide hidden := by
  constructor
  · obtain ⟨description, name, builtIn, directives, body⟩ := u
    rintro ⟨rfl, rfl, rfl, rfl, hbody⟩
    obtain rfl := (TypeBody.pruned_iff _ _).mp hbody
    rfl
  · rintro rfl
    exact ⟨rfl, rfl, rfl, rfl, (TypeBody.pruned_iff _ _).mpr rfl⟩

theorem DirectiveDef.pruned_iff
    (d e : DirectiveDef) :
    d.Pruned hidden e ↔ e = d.elide hidden := by
  have arguments := forall₂_iff_eq_map (@InputValue.pruned_iff hidden)
  constructor
  · obtain ⟨description, name, as, repeatable, locations, builtIn⟩ := e
    rintro ⟨rfl, rfl, has, rfl, rfl, rfl⟩
    obtain rfl := (arguments _ _).mp has
    rfl
  · rintro rfl
    exact ⟨rfl, rfl, (arguments _ _).mpr rfl, rfl, rfl, rfl⟩

theorem SchemaDef.pruned_iff
    (d e : SchemaDef) :
    d.Pruned hidden e ↔ e = d.elide hidden := by
  constructor
  · obtain ⟨description, directives, query, mutation, subscription⟩ := e
    rintro ⟨rfl, rfl, rfl, rfl, rfl⟩
    rfl
  · rintro rfl
    exact ⟨rfl, rfl, rfl, rfl, rfl⟩

end Unique

section Applications

variable (hidden : Hidden)

theorem InputValue.flatMap_directives_elide
    (vs : List InputValue) :
    (vs.map (elide hidden)).flatMap directives =
      (vs.flatMap directives).filter (fun d => !hidden d.name) := by
  rw [List.flatMap_map, List.filter_flatMap]
  rfl

theorem Field.applications_elide
    (f : Field) :
    (f.elide hidden).applications = f.applications.filter (fun d => !hidden d.name) := by
  rw [applications, applications, List.filter_append, ← InputValue.flatMap_directives_elide]
  rfl

theorem TypeBody.applications_elide
    (b : TypeBody) :
    (b.elide hidden).applications = b.applications.filter (fun d => !hidden d.name) := by
  cases b with
  | scalar => rfl
  | union members => rfl
  | object interfaces fs =>
      simp [elide, applications, Table.mapValues, List.flatMap_map, List.filter_flatMap,
        Field.applications_elide]
  | interface interfaces fs =>
      simp [elide, applications, Table.mapValues, List.flatMap_map, List.filter_flatMap,
        Field.applications_elide]
  | enum vs =>
      simp [elide, applications, Table.mapValues, List.flatMap_map, List.filter_flatMap,
        EnumValue.elide, Directive.elideList]
  | inputObject fs =>
      simp [elide, applications, Table.mapValues, List.flatMap_map, List.filter_flatMap,
        InputValue.elide, Directive.elideList]

theorem map_item_elideSourced
    (ds : List (Sourced Directive)) :
    (Directive.elideSourced hidden ds).map Sourced.item =
      (ds.map Sourced.item).filter (fun d => !hidden d.name) := by
  rw [List.filter_map]
  rfl

theorem TypeDef.allApplications_elide
    (t : TypeDef) :
    (t.elide hidden).allApplications = t.allApplications.filter (fun d => !hidden d.name) := by
  rw [allApplications, allApplications, List.filter_append, ← TypeBody.applications_elide]
  exact congrArg (· ++ _) (map_item_elideSourced hidden t.directives)

theorem DirectiveDef.applications_elide
    (d : DirectiveDef) :
    (d.elide hidden).applications = d.applications.filter (fun a => !hidden a.name) :=
  InputValue.flatMap_directives_elide hidden d.arguments

theorem SchemaDef.applications_elide
    (d : SchemaDef) :
    (d.elide hidden).applications = d.applications.filter (fun a => !hidden a.name) :=
  map_item_elideSourced hidden d.directives

end Applications

namespace Table

variable {α : Type} [Keyed α]

theorem keys_filter_eq
    (keep : Name → Bool)
    {p : α → Bool}
    (h : ∀ x, p x = keep (key x))
    (t : Table α) :
    (t.filter p).keys = t.keys.filter keep := by
  rw [keys, keys, List.filter_map, filter, show p = keep ∘ key from funext h]

end Table

namespace Schema

variable {hiddenType hidden : Hidden} {s : Schema}

theorem keys_types_elide
    (s : Schema) :
    (s.elide hiddenType hidden).types.keys = s.types.keys.filter (fun n => !hiddenType n) := by
  have kept := Table.keys_mapValues (TypeDef.elide hidden) (fun _ => rfl)
    (s.types.filter (fun t => !hiddenType t.name))
  exact kept.trans (Table.keys_filter_eq (fun n => !hiddenType n) (fun _ => rfl) s.types)

theorem keys_directives_elide
    (s : Schema) :
    (s.elide hiddenType hidden).directives.keys =
      s.directives.keys.filter (fun n => !hidden n) := by
  have kept := Table.keys_mapValues (DirectiveDef.elide hidden) (fun _ => rfl)
    (s.directives.filter (fun d => !hidden d.name))
  exact kept.trans (Table.keys_filter_eq (fun n => !hidden n) (fun _ => rfl) s.directives)

/-- The introspection types keep their places unless they are hidden. -/
theorem introspection_elide
    (s : Schema) :
    (s.elide hiddenType hidden).introspection =
      s.introspection.filter (fun n => !hiddenType n) := by
  refine List.filter_congr fun n hn => ?_
  have place := s.introspection_sub n hn
  have shown : (s.elide hiddenType hidden).types.contains n = true ↔
      (!hiddenType n) = true := by
    rw [Table.contains_iff, keys_types_elide, List.mem_filter]
    exact and_iff_right place
  exact Bool.eq_iff_iff.mpr shown

/-- No application that is left is a hidden one. -/
theorem not_hidden_of_mem_elide
    {d : Directive}
    (h : d ∈ (s.elide hiddenType hidden).allApplications) :
    hidden d.name = false := by
  have filtered : ∀ {ds : List Directive}, d ∈ ds.filter (fun d => !hidden d.name) →
      hidden d.name = false := by
    intro ds hd
    simpa using (List.mem_filter.mp hd).2
  rw [allApplications, List.mem_append, List.mem_append] at h
  rcases h with (hd | hd) | hd
  · exact filtered (SchemaDef.applications_elide hidden s.definition ▸ hd)
  · obtain ⟨u, hu, hd⟩ := List.mem_flatMap.mp hd
    obtain ⟨t, -, rfl⟩ := List.mem_map.mp hu
    exact filtered (TypeDef.allApplications_elide hidden t ▸ hd)
  · obtain ⟨e, he, hd⟩ := List.mem_flatMap.mp hd
    obtain ⟨x, -, rfl⟩ := List.mem_map.mp he
    exact filtered (DirectiveDef.applications_elide hidden x ▸ hd)

/-- Elision leaves a schema alone that has nothing hidden. -/
theorem elide_eq_self
    (types : ∀ n ∈ s.types.keys, hiddenType n = false)
    (directives : ∀ n ∈ s.directives.keys, hidden n = false)
    (applications : ∀ d ∈ s.allApplications, hidden d.name = false) :
    s.elide hiddenType hidden = s := by
  have everyType : s.types.items.filter (fun t => !hiddenType t.name) = s.types.items :=
    List.filter_eq_self.mpr fun t ht => by
      rw [types t.name (Table.key_mem_keys ht)]
      rfl
  have everyDirective : s.directives.items.filter (fun d => !hidden d.name) =
      s.directives.items :=
    List.filter_eq_self.mpr fun d hd => by
      rw [directives d.name (Table.key_mem_keys hd)]
      rfl
  have parts := List.forall_mem_append.mp applications
  have members := List.forall_mem_append.mp parts.1
  refine Schema.ext (SchemaDef.elide_eq_self members.1) (Table.ext ?_) (Table.ext ?_) ?_
  · refine Eq.trans (congrArg (List.map _) everyDirective) (map_eq_self fun d hd => ?_)
    exact DirectiveDef.elide_eq_self fun a ha => parts.2 a (List.mem_flatMap.mpr ⟨d, hd, ha⟩)
  · refine Eq.trans (congrArg (List.map _) everyType) (map_eq_self fun t ht => ?_)
    exact TypeDef.elide_eq_self fun a ha => members.2 a (List.mem_flatMap.mpr ⟨t, ht, ha⟩)
  · rw [introspection_elide]
    refine List.filter_eq_self.mpr fun n hn => ?_
    rw [types n (s.introspection_sub n hn)]
    rfl

end Schema

namespace Target

variable (f : Target)

/-- A target prunes to one schema, which is what elision gives. -/
theorem prunes_iff
    (s : Schema) :
    f.Prunes s ↔ s = f.elide := by
  constructor
  · rintro ⟨definition, directives, types, introspection⟩
    refine Schema.ext ((SchemaDef.pruned_iff _ _).mp definition) (Table.ext ?_) (Table.ext ?_) ?_
    · exact (forall₂_iff_eq_map DirectiveDef.pruned_iff _ _).mp directives
    · exact (forall₂_iff_eq_map TypeDef.pruned_iff _ _).mp types
    · exact introspection.trans (Schema.introspection_elide f.schema).symm
  · rintro rfl
    exact {
      definition := (SchemaDef.pruned_iff _ _).mpr rfl
      directives := (forall₂_iff_eq_map DirectiveDef.pruned_iff _ _).mpr rfl
      types := (forall₂_iff_eq_map TypeDef.pruned_iff _ _).mpr rfl
      introspection := Schema.introspection_elide f.schema }

/-- What is elided has nothing more to elide. -/
theorem elide_elide :
    ({ f with schema := f.elide } : Target).elide = f.elide := by
  have types : ∀ n ∈ f.elide.types.keys, f.isMarkedType n = false := by
    intro n hn
    rw [elide, Schema.keys_types_elide] at hn
    simpa using (List.mem_filter.mp hn).2
  have directives : ∀ n ∈ f.elide.directives.keys, f.isMarkedDirective n = false := by
    intro n hn
    rw [elide, Schema.keys_directives_elide] at hn
    simpa using (List.mem_filter.mp hn).2
  exact Schema.elide_eq_self types directives fun d => Schema.not_hidden_of_mem_elide

/-- **Elision removes what is marked and nothing else.**  What it gives is the one schema
that the target prunes to: every type, directive definition and list of applications is as
it was, without what is marked.  So the names are those that bear no mark, in order, no
marked directive is applied anywhere, and a second elision changes nothing. -/
theorem elision_is_exact :
    (∀ s, f.Prunes s ↔ s = f.elide) ∧
      f.elide.types.keys = f.schema.types.keys.filter (fun n => !f.isMarkedType n) ∧
      f.elide.directives.keys =
        f.schema.directives.keys.filter (fun n => !f.isMarkedDirective n) ∧
      (∀ d ∈ f.elide.allApplications, f.isMarkedDirective d.name = false) ∧
      ({ f with schema := f.elide } : Target).elide = f.elide :=
  ⟨f.prunes_iff, Schema.keys_types_elide f.schema, Schema.keys_directives_elide f.schema,
    fun _ => Schema.not_hidden_of_mem_elide, f.elide_elide⟩

/-- An application without arguments of the directive that is marked in `twoMarks`, or of
the other one. -/
def sampleMark (marked : Bool) : Directive where
  name := if marked then ⟨"m", by decide⟩ else ⟨"k", by decide⟩
  arguments := []

/-- Two directives, one of them marked, are applied in turn: to the schema by its extensions,
to the value of an enum, and to the argument of the directive that is not marked. -/
def twoMarks : Target where
  schema := {
    definition := { SchemaDef.empty with
      directives :=
        [⟨.extension 0, sampleMark true⟩, ⟨.definition, sampleMark false⟩,
          ⟨.extension 0, sampleMark false⟩, ⟨.extension 1, sampleMark true⟩] }
    directives :=
      (Table.empty.put (.plain (sampleMark true).name [] true [.schema])).put
        (.plain (sampleMark false).name
          [⟨none, ArgumentName.name, .named BuiltIn.int false, none,
            [sampleMark true, sampleMark false, sampleMark true]⟩]
          true [.enumValue])
    types := Table.empty.put {
      TypeDef.plainScalar ⟨"E", by decide⟩ with
      body := .enum (Table.empty.put
        ⟨.definition, none, ⟨"A", by decide⟩, [sampleMark true, sampleMark false]⟩) }
    introspection := []
    introspection_sub := by simp }
  config := none
  markedTypes := .empty
  markedDirectives := Table.empty.put (sampleMark true).name

/-- Of the two directives the one without a mark is still applied, twice to the schema, once
to the value and once to the argument. -/
theorem elision_of_twoMarks :
    twoMarks.elide.allApplications = List.replicate 4 (sampleMark false) ∧
      twoMarks.isMarkedDirective (sampleMark false).name = false := by
  have left : twoMarks.elide.allApplications = List.replicate 4 (sampleMark false) := by decide
  have applied : sampleMark false ∈ twoMarks.elide.allApplications := by
    rw [left]
    exact List.mem_replicate.mpr ⟨by decide, rfl⟩
  exact ⟨left, (elision_is_exact twoMarks).2.2.2.1 _ applied⟩

end Target

end Supergraph
