import Supergraph.Proofs.Elementwise
import Supergraph.Proofs.Schema.Parts
import Supergraph.Proofs.Target

/-!
# Reading a schema again

The definitions that a schema is written as make up a schema again, as long as the types
under the names of the language are the built-in ones with nothing but extensions
(`Standard`) and the schema definition is written (`ofDefinitions_toDefinitions`).  All
types and all applications on the schema come back; built-in types come back even if they
had been taken out.
-/

namespace Supergraph

section Lists

variable {α β : Type}

theorem nodup_distinct
    [DecidableEq α]
    (xs : List α) :
    (distinct xs).Nodup := by
  induction xs with
  | nil => exact List.nodup_nil
  | cons x xs ih =>
      rw [distinct, List.nodup_cons]
      exact ⟨by simp, ih.filter _⟩

theorem mem_distinct
    [DecidableEq α]
    {xs : List α}
    {a : α} :
    a ∈ distinct xs ↔ a ∈ xs := by
  induction xs with
  | nil => rfl
  | cons x xs ih =>
      simp only [distinct, List.mem_cons, List.mem_filter, ih]
      by_cases h : a = x <;> simp [h]

theorem mapM_eq_ok_iff
    {ε : Type}
    {f : α → Except ε β}
    {xs : List α}
    {ys : List β} :
    xs.mapM f = .ok ys ↔ List.Forall₂ (fun x y => f x = .ok y) xs ys := by
  induction xs generalizing ys with
  | nil => cases ys <;> simp [pure, Except.pure]
  | cons x xs ih =>
      rw [List.mapM_cons]
      cases hx : f x with
      | error e => cases ys <;> simp [bind, Except.bind, hx]
      | ok y =>
          cases hxs : xs.mapM f with
          | error e => cases ys <;> simp [bind, Except.bind, ← ih, hxs, hx]
          | ok zs => cases ys <;> simp [bind, Except.bind, pure, Except.pure, ← ih, hxs, hx]

theorem exists_mapM_eq_ok
    {ε : Type}
    {f : α → Except ε β}
    {P : α → β → Prop}
    {xs : List α}
    (h : ∀ x ∈ xs, ∃ y, f x = .ok y ∧ P x y) :
    ∃ ys, xs.mapM f = .ok ys ∧ List.Forall₂ P xs ys := by
  have both : ∃ ys, List.Forall₂ (fun x y => f x = .ok y) xs ys ∧ List.Forall₂ P xs ys := by
    induction xs with
    | nil => exact ⟨[], .nil, .nil⟩
    | cons x xs ih =>
        obtain ⟨y, hy, hp⟩ := h x List.mem_cons_self
        obtain ⟨ys, hys, hps⟩ := ih fun z hz => h z (List.mem_cons_of_mem x hz)
        exact ⟨y :: ys, .cons hy hys, .cons hp hps⟩
  obtain ⟨ys, hys, hps⟩ := both
  exact ⟨ys, mapM_eq_ok_iff.mpr hys, hps⟩

end Lists

namespace Origin

theorem mem_extensions_iff
    {os : List Origin}
    {o : Origin} :
    o ∈ extensions os ↔ o ∈ os ∧ o ≠ .definition := by
  simp [extensions, mem_distinct]

theorem nodup_extensions
    (os : List Origin) :
    (extensions os).Nodup :=
  nodup_distinct _

theorem disjoint_extensions
    {os : List Origin} :
    (extensions os).Disjoint [.definition] :=
  fun _ extension definition => (mem_extensions_iff.mp extension).2 (List.mem_singleton.mp definition)

end Origin

section Written

namespace SystemDefinition

theorem types_append
    (ds es : List SystemDefinition) :
    types (ds ++ es) = types ds ++ types es :=
  List.filterMap_append

theorem typeExtensions_append
    (ds es : List SystemDefinition) :
    typeExtensions (ds ++ es) = typeExtensions ds ++ typeExtensions es :=
  List.filterMap_append

theorem extensionsOf_append
    (n : Name)
    (ds es : List SystemDefinition) :
    extensionsOf n (ds ++ es) = extensionsOf n ds ++ extensionsOf n es := by
  rw [extensionsOf, typeExtensions_append, List.filter_append]
  rfl

theorem types_flatMap
    (ts : List TypeDef) :
    types (ts.flatMap TypeDef.toDefinitions) =
      (ts.filter (fun t => !t.builtIn)).map (TypeDef.fromOrigin .definition) := by
  induction ts with
  | nil => rfl
  | cons t ts ih =>
      rw [List.flatMap_cons, types_append, ih]
      cases hb : t.builtIn <;> simp [types, TypeDef.toDefinitions, hb]

theorem typeExtensions_flatMap
    (ts : List TypeDef) :
    typeExtensions (ts.flatMap TypeDef.toDefinitions) =
      ts.flatMap (fun t => t.extensions.map (fun o => t.fromOrigin o)) := by
  induction ts with
  | nil => rfl
  | cons t ts ih =>
      rw [List.flatMap_cons, typeExtensions_append, ih, List.flatMap_cons]
      cases hb : t.builtIn <;> simp [typeExtensions, TypeDef.toDefinitions, hb]

/-- Extensions of types of other names are none of this type. -/
theorem extensionsOf_flatMap_of_not_mem
    {n : Name}
    {ts : List TypeDef}
    (h : n ∉ ts.map TypeDef.name) :
    extensionsOf n (ts.flatMap TypeDef.toDefinitions) = [] := by
  rw [extensionsOf, typeExtensions_flatMap, List.filter_eq_nil_iff]
  intro e he named
  obtain ⟨t, ht, he⟩ := List.mem_flatMap.mp he
  obtain ⟨o, -, rfl⟩ := List.mem_map.mp he
  exact h (List.mem_map.mpr ⟨t, ht, beq_iff_eq.mp named⟩)

theorem extensionsOf_toDefinitions_self
    (t : TypeDef) :
    extensionsOf t.name t.toDefinitions = t.extensions.map (fun o => t.fromOrigin o) := by
  have all := typeExtensions_flatMap [t]
  rw [List.flatMap_singleton, List.flatMap_singleton] at all
  rw [extensionsOf, all, List.filter_eq_self]
  intro e he
  obtain ⟨o, -, rfl⟩ := List.mem_map.mp he
  exact beq_self_eq_true t.name

theorem extensionsOf_flatMap
    {ts : List TypeDef}
    (distinct : (ts.map TypeDef.name).Nodup)
    {t : TypeDef}
    (ht : t ∈ ts) :
    extensionsOf t.name (ts.flatMap TypeDef.toDefinitions) =
      t.extensions.map (fun o => t.fromOrigin o) := by
  obtain ⟨before, after, rfl⟩ := List.append_of_mem ht
  rw [List.map_append, List.map_cons, List.nodup_middle, List.nodup_cons, List.mem_append,
    not_or] at distinct
  rw [List.flatMap_append, List.flatMap_cons, extensionsOf_append, extensionsOf_append,
    extensionsOf_flatMap_of_not_mem distinct.1.1, extensionsOf_flatMap_of_not_mem distinct.1.2,
    extensionsOf_toDefinitions_self, List.nil_append, List.append_nil]

/-- Around the first definition of a type. -/
theorem extensionsAround_append
    {t : TypeText}
    {inFront behind : List SystemDefinition}
    (first : .type t ∉ inFront) :
    extensionsAround t (inFront ++ .type t :: behind) =
      (extensionsOf t.name inFront).filter (fun e => e.contents.kind = t.contents.kind)
        ++ extensionsOf t.name (.type t :: behind) := by
  have other : ∀ d ∈ inFront, decide (d ≠ .type t) = true := by
    intro d hd
    rw [decide_eq_true_iff]
    rintro rfl
    exact first hd
  have stop : decide (SystemDefinition.type t ≠ .type t) = false := by simp
  simp only [extensionsAround, List.takeWhile_append_of_pos other,
    List.dropWhile_append_of_pos other, List.takeWhile_cons, List.dropWhile_cons, stop,
    Bool.false_eq_true, if_false, List.append_nil]

end SystemDefinition

namespace Schema

variable (s : Schema)

/-- What is written in front of the types. -/
def preamble : List SystemDefinition :=
  s.definition.toDefinitions s.types
    ++ (s.directives.items.filter (fun d => !d.builtIn)).map .directive

theorem toDefinitions_eq :
    s.toDefinitions = s.preamble ++ s.types.items.flatMap TypeDef.toDefinitions :=
  rfl

theorem types_preamble : SystemDefinition.types s.preamble = [] := by
  cases h : s.definition.isImplicit s.types <;>
    simp [preamble, SystemDefinition.types, SchemaDef.toDefinitions, h]

theorem typeExtensions_preamble : SystemDefinition.typeExtensions s.preamble = [] := by
  cases h : s.definition.isImplicit s.types <;>
    simp [preamble, SystemDefinition.typeExtensions, SchemaDef.toDefinitions, h]

theorem extensionsOf_preamble (n : Name) : SystemDefinition.extensionsOf n s.preamble = [] := by
  rw [SystemDefinition.extensionsOf, typeExtensions_preamble, List.filter_nil]

/-- What is neither a type nor an extension of one is written in front of them. -/
theorem filterMap_toDefinitions
    {α : Type}
    {p : SystemDefinition → Option α}
    (types : ∀ t, p (.type t) = none)
    (extensions : ∀ t, p (.typeExtension t) = none) :
    s.toDefinitions.filterMap p = s.preamble.filterMap p := by
  have none_of_types : (s.types.items.flatMap TypeDef.toDefinitions).filterMap p = [] := by
    rw [List.filterMap_eq_nil_iff]
    intro d hd
    obtain ⟨t, -, hd⟩ := List.mem_flatMap.mp hd
    rcases List.mem_append.mp hd with hd | hd
    · split at hd
      · cases hd
      · rw [List.mem_singleton.mp hd, types]
    · obtain ⟨o, -, rfl⟩ := List.mem_map.mp hd
      exact extensions _
  rw [toDefinitions_eq, List.filterMap_append, none_of_types, List.append_nil]

theorem directives_toDefinitions :
    SystemDefinition.directives s.toDefinitions =
      s.directives.items.filter (fun d => !d.builtIn) := by
  rw [SystemDefinition.directives, s.filterMap_toDefinitions (fun _ => rfl) (fun _ => rfl)]
  cases h : s.definition.isImplicit s.types <;>
    simp [preamble, SchemaDef.toDefinitions, h]

theorem schemas_toDefinitions :
    SystemDefinition.schemas s.toDefinitions =
      if s.definition.isImplicit s.types then [] else [s.definition.fromOrigin .definition] := by
  rw [SystemDefinition.schemas, s.filterMap_toDefinitions (fun _ => rfl) (fun _ => rfl)]
  cases h : s.definition.isImplicit s.types <;> simp [preamble, SchemaDef.toDefinitions, h]

theorem schemaExtensions_toDefinitions :
    SystemDefinition.schemaExtensions s.toDefinitions =
      s.definition.extensions.map (fun o => s.definition.fromOrigin o) := by
  rw [SystemDefinition.schemaExtensions, s.filterMap_toDefinitions (fun _ => rfl) (fun _ => rfl)]
  cases h : s.definition.isImplicit s.types <;> simp [preamble, SchemaDef.toDefinitions, h]

theorem types_toDefinitions :
    SystemDefinition.types s.toDefinitions =
      (s.types.items.filter (fun t => !t.builtIn)).map (TypeDef.fromOrigin .definition) := by
  rw [toDefinitions_eq, SystemDefinition.types_append, types_preamble, List.nil_append,
    SystemDefinition.types_flatMap]

theorem typeExtensions_toDefinitions :
    SystemDefinition.typeExtensions s.toDefinitions =
      s.types.items.flatMap (fun t => t.extensions.map (fun o => t.fromOrigin o)) := by
  rw [toDefinitions_eq, SystemDefinition.typeExtensions_append, typeExtensions_preamble,
    List.nil_append, SystemDefinition.typeExtensions_flatMap]

variable {s}

theorem extensionsOf_toDefinitions
    {t : TypeDef}
    (ht : t ∈ s.types.items) :
    SystemDefinition.extensionsOf t.name s.toDefinitions =
      t.extensions.map (fun o => t.fromOrigin o) := by
  rw [toDefinitions_eq, SystemDefinition.extensionsOf_append, extensionsOf_preamble,
    List.nil_append]
  exact SystemDefinition.extensionsOf_flatMap s.types.nodup ht

theorem extensionsOf_toDefinitions_of_not_mem
    {n : Name}
    (h : n ∉ s.types.keys) :
    SystemDefinition.extensionsOf n s.toDefinitions = [] := by
  rw [toDefinitions_eq, SystemDefinition.extensionsOf_append, extensionsOf_preamble,
    List.nil_append]
  exact SystemDefinition.extensionsOf_flatMap_of_not_mem h

/-- The extensions of a type are written right behind it, and there are no others. -/
theorem extensionsAround_toDefinitions
    {t : TypeDef}
    (ht : t ∈ s.types.items)
    (own : t.builtIn = false) :
    SystemDefinition.extensionsAround (t.fromOrigin .definition) s.toDefinitions =
      t.extensions.map (fun o => t.fromOrigin o) := by
  obtain ⟨before, after, items⟩ := List.append_of_mem ht
  have distinct : (s.types.items.map TypeDef.name).Nodup := s.types.nodup
  rw [items, List.map_append, List.map_cons, List.nodup_middle, List.nodup_cons,
    List.mem_append, not_or] at distinct
  have split : s.toDefinitions = (s.preamble ++ before.flatMap TypeDef.toDefinitions) ++
      (.type (t.fromOrigin .definition) ::
        (t.extensions.map (fun o => .typeExtension (t.fromOrigin o))
          ++ after.flatMap TypeDef.toDefinitions)) := by
    rw [toDefinitions_eq, items, List.flatMap_append, List.flatMap_cons]
    simp [TypeDef.toDefinitions, own]
  have front : SystemDefinition.type (t.fromOrigin .definition) ∉
      s.preamble ++ before.flatMap TypeDef.toDefinitions := by
    intro hd
    have mem : t.fromOrigin .definition ∈
        SystemDefinition.types (s.preamble ++ before.flatMap TypeDef.toDefinitions) :=
      List.mem_filterMap.mpr ⟨_, hd, rfl⟩
    rw [SystemDefinition.types_append, types_preamble, List.nil_append,
      SystemDefinition.types_flatMap] at mem
    obtain ⟨u, hu, hut⟩ := List.mem_map.mp mem
    have named : u.name = t.name := congrArg TypeText.name hut
    exact distinct.1.1 (List.mem_map.mpr ⟨u, (List.mem_filter.mp hu).1, named⟩)
  have none_in_front : SystemDefinition.extensionsOf t.name
      (s.preamble ++ before.flatMap TypeDef.toDefinitions) = [] := by
    rw [SystemDefinition.extensionsOf_append, extensionsOf_preamble,
      SystemDefinition.extensionsOf_flatMap_of_not_mem distinct.1.1, List.append_nil]
  have all := extensionsOf_toDefinitions ht
  rw [split, SystemDefinition.extensionsOf_append, none_in_front, List.nil_append] at all
  rw [split, SystemDefinition.extensionsAround_append front]
  show (SystemDefinition.extensionsOf t.name _).filter _ ++ SystemDefinition.extensionsOf t.name _ = _
  rw [none_in_front, all]
  rfl

end Schema

end Written

namespace Schema

section Directives

/-- Definitions of different names can be added where only built-in ones are in their
places. -/
theorem exists_addDirectives
    {t : Table DirectiveDef}
    {ds : List DirectiveDef}
    (distinct : (ds.map DirectiveDef.name).Nodup)
    (free : ∀ d ∈ ds, ∀ old, t.get? d.name = some old → old.builtIn = true) :
    ∃ t', addDirectives t ds = .ok t' ∧
      ∀ n, n ∈ ds.map DirectiveDef.name ∨ n ∈ t.keys → n ∈ t'.keys := by
  induction ds generalizing t with
  | nil => exact ⟨t, rfl, fun n hn => hn.resolve_left List.not_mem_nil⟩
  | cons d ds ih =>
      rw [List.map_cons, List.nodup_cons] at distinct
      have free' : ∀ e ∈ ds, ∀ old, (t.put d).get? e.name = some old → old.builtIn = true := by
        intro e he old hold
        have apart : e.name ≠ d.name := fun same =>
          distinct.1 (List.mem_map.mpr ⟨e, he, same⟩)
        rw [Table.get?_put_of_ne apart] at hold
        exact free e (List.mem_cons_of_mem d he) old hold
      obtain ⟨t', added, keys⟩ := ih distinct.2 free'
      refine ⟨t', ?_, fun n hn => keys n ?_⟩
      · unfold addDirectives
        cases hold : t.get? d.name with
        | none => exact added
        | some old =>
            simp only [free d List.mem_cons_self old hold, if_true]
            exact added
      · rw [Table.mem_keys_put, key_directiveDef]
        rw [List.map_cons, List.mem_cons] at hn
        tauto

end Directives

section Types

/-- The types under the names of the language are the built-in ones, with nothing but
extensions; only scalars may be missing. -/
structure Standard (types : Table TypeDef) : Prop where
  introspection : ∀ n ∈ BuiltIn.introspectionNames, n ∈ types.keys
  reserved : ∀ t ∈ types.items, t.name ∈ BuiltIn.types.keys → t.builtIn = true
  grown : ∀ t ∈ types.items, t.builtIn = true →
    ∃ b ∈ BuiltIn.types.items, b.name = t.name ∧ b.body.DrawnFrom [.definition] t.body

variable {s : Schema}

/-- A built-in type takes in the extensions of the type under its name. -/
theorem Standard.exists_extendAll_builtIn
    (h : Standard s.types)
    {b : TypeDef}
    (hb : b ∈ BuiltIn.types.items) :
    ∃ t, b.extendAll 0 (SystemDefinition.extensionsOf b.name s.toDefinitions) = .ok t ∧
      t.name = b.name := by
  by_cases defined : b.name ∈ s.types.keys
  · obtain ⟨t, ht, named⟩ := Table.mem_keys_iff.mp defined
    have builtIn : t.builtIn = true := by
      refine h.reserved t ht ?_
      rw [key_typeDef] at named
      rw [named]
      exact Table.key_mem_keys hb
    obtain ⟨b', hb', named', drawn⟩ := h.grown t ht builtIn
    obtain rfl : b' = b :=
      List.inj_on_of_nodup_map BuiltIn.types.nodup hb' hb (named'.trans named)
    obtain ⟨u, extended, kept⟩ := TypeDef.extendAll_fromOrigin drawn (Origin.nodup_extensions _)
      Origin.disjoint_extensions 0
    exact ⟨u, by rw [named', extensionsOf_toDefinitions ht]; exact extended, kept⟩
  · rw [extensionsOf_toDefinitions_of_not_mem defined]
    exact ⟨b, rfl, rfl⟩

/-- Another type is made of its definition and its extensions. -/
theorem exists_assembleType
    {t : TypeDef}
    (ht : t ∈ s.types.items)
    (own : t.builtIn = false) :
    ∃ u, assembleType s.toDefinitions (t.fromOrigin .definition) = .ok u ∧ u.name = t.name := by
  obtain ⟨u, started, named, drawn⟩ := TypeDef.add_fromOrigin (t := t)
    (u := { description := t.description, name := t.name, builtIn := false, directives := [],
            body := .ofKind t.kind })
    (TypeBody.drawnFrom_ofKind t.body) (List.not_mem_nil (a := Origin.definition)) .definition
  obtain ⟨u', extended, named'⟩ := TypeDef.extendAll_fromOrigin drawn (Origin.nodup_extensions _)
    Origin.disjoint_extensions 0
  have start : TypeDef.ofText (t.fromOrigin .definition) = .ok u := by
    rw [TypeDef.ofText, TypeDef.kind_contents_fromOrigin]
    exact started
  refine ⟨u', ?_, named'.trans named⟩
  rw [assembleType, start, extensionsAround_toDefinitions ht own]
  exact extended

/-- All types come back, and the built-in ones even if they had been taken out. -/
theorem exists_assembleTypes
    (h : Standard s.types) :
    ∃ types, assembleTypes s.toDefinitions = .ok types ∧
      ∀ n ∈ s.types.keys, n ∈ types.keys := by
  obtain ⟨bs, builtIn, bnames⟩ := exists_mapM_eq_ok fun b hb => h.exists_extendAll_builtIn hb
  have texts : ∀ text ∈ SystemDefinition.types s.toDefinitions,
      ∃ u, assembleType s.toDefinitions text = .ok u ∧ u.name = text.name := by
    intro text htext
    rw [types_toDefinitions] at htext
    obtain ⟨t, ht, rfl⟩ := List.mem_map.mp htext
    obtain ⟨ht, own⟩ := List.mem_filter.mp ht
    exact exists_assembleType ht (by simpa using own)
  obtain ⟨ts, declared, tnames⟩ := exists_mapM_eq_ok texts
  have names : (bs ++ ts).map TypeDef.name =
      BuiltIn.types.keys ++ (s.types.items.filter (fun t => !t.builtIn)).map TypeDef.name := by
    rw [List.map_append, map_eq_of_forall₂ bnames, map_eq_of_forall₂ tnames, types_toDefinitions,
      List.map_map]
    rfl
  have distinct : ((bs ++ ts).map key).Nodup := by
    show ((bs ++ ts).map TypeDef.name).Nodup
    rw [names]
    refine List.nodup_append.mpr ⟨BuiltIn.types.nodup,
      s.types.nodup.sublist (List.Sublist.map key List.filter_sublist), ?_⟩
    rintro n hn _ hm rfl
    obtain ⟨t, ht, rfl⟩ := List.mem_map.mp hm
    obtain ⟨ht, own⟩ := List.mem_filter.mp ht
    simp [h.reserved t ht hn] at own
  have all : ∀ t ∈ s.types.items, t.name ∈ (bs ++ ts).map TypeDef.name := by
    intro t ht
    rw [names, List.mem_append]
    cases own : t.builtIn with
    | false => exact Or.inr (List.mem_map.mpr ⟨t, List.mem_filter.mpr ⟨ht, by simp [own]⟩, rfl⟩)
    | true =>
        obtain ⟨b, hb, named, -⟩ := h.grown t ht own
        exact Or.inl (named ▸ Table.key_mem_keys hb)
  have extended : (SystemDefinition.typeExtensions s.toDefinitions).find?
      (fun e => !(bs ++ ts).any (fun t => t.name == e.name)) = none := by
    rw [List.find?_eq_none, typeExtensions_toDefinitions]
    intro e he
    obtain ⟨t, ht, he⟩ := List.mem_flatMap.mp he
    obtain ⟨o, -, rfl⟩ := List.mem_map.mp he
    obtain ⟨u, hu, named⟩ := List.mem_map.mp (all t ht)
    have found : (bs ++ ts).any (fun u => u.name == (t.fromOrigin o).name) = true :=
      List.any_eq_true.mpr ⟨u, hu, beq_iff_eq.mpr named⟩
    simp [found]
  refine ⟨⟨bs ++ ts, distinct⟩, ?_, ?_⟩
  · have table : Table.ofList? (bs ++ ts) = some ⟨bs ++ ts, distinct⟩ := dif_pos distinct
    unfold assembleTypes
    rw [builtIn]
    simp only [bind, Except.bind, declared, extended, table]
    rfl
  · intro n hn
    obtain ⟨t, ht, rfl⟩ := Table.mem_keys_iff.mp hn
    exact all t ht

end Types

section Wholes

variable {s s' : Schema} {ds : List SystemDefinition}

/-- The three parts of a schema are put together on their own. -/
theorem ofDefinitions_eq_ok_iff :
    ofDefinitions ds = .ok s' ↔
      ∃ directives types definition,
        addDirectives BuiltIn.directives (SystemDefinition.directives ds) = .ok directives ∧
        assembleTypes ds = .ok types ∧
        assembleDefinition types ds = .ok definition ∧
        s' = { BuiltIn.schema.withTypes types with
          definition := definition
          directives := directives } := by
  unfold ofDefinitions
  constructor
  · intro h
    cases hd : addDirectives BuiltIn.directives (SystemDefinition.directives ds) with
    | error e => rw [hd] at h; cases h
    | ok directives =>
        cases ht : assembleTypes ds with
        | error e => rw [hd, ht] at h; cases h
        | ok types =>
            cases hdef : assembleDefinition types ds with
            | error e => simp only [hd, ht, hdef, bind, Except.bind] at h; cases h
            | ok definition =>
                simp only [hd, ht, hdef, bind, Except.bind] at h
                cases h
                exact ⟨_, _, _, rfl, rfl, hdef, rfl⟩
  · rintro ⟨directives, types, definition, hd, ht, hdef, rfl⟩
    simp only [hd, ht, hdef, bind, Except.bind]
    rfl

/-- What is applied to the schema is what its definition and its extensions say. -/
theorem mem_applications_assembleDefinition
    {types : Table TypeDef}
    {d : SchemaDef}
    (h : assembleDefinition types ds = .ok d)
    {a : Directive} :
    a ∈ d.applications ↔
      ∃ text ∈ SystemDefinition.schemas ds ++ SystemDefinition.schemaExtensions ds,
        a ∈ text.directives := by
  unfold assembleDefinition at h
  split at h
  · rename_i none_written
    dsimp only at h
    split at h
    · cases h
    · have applications := SchemaDef.applications_extendAll h
      rw [applications, none_written]
      simp [SchemaDef.implied, SchemaDef.applications, SchemaDef.empty]
  · rename_i text written
    cases added : SchemaDef.add .definition
        { SchemaDef.empty with description := text.description } text with
    | error e => simp only [added, bind, Except.bind] at h; cases h
    | ok d₁ =>
        simp only [added, bind, Except.bind] at h
        have applications := SchemaDef.applications_extendAll h
        rw [applications, SchemaDef.applications, SchemaDef.directives_add added, written]
        simp [SchemaDef.empty]
  · cases h

theorem exists_assembleDefinition
    (types : Table TypeDef)
    (written : s.definition.isImplicit s.types = false) :
    ∃ d, assembleDefinition types s.toDefinitions = .ok d := by
  have rootless : SchemaDef.RootsDrawnFrom []
      { SchemaDef.empty with description := s.definition.description } s.definition := by
    intro k present
    cases k <;> exact absurd rfl present
  obtain ⟨d, started, drawn⟩ := SchemaDef.add_fromOrigin rootless
    (List.not_mem_nil (a := Origin.definition)) .definition
  obtain ⟨d', extended⟩ := SchemaDef.extendAll_fromOrigin drawn (Origin.nodup_extensions _)
    Origin.disjoint_extensions 0
  refine ⟨d', ?_⟩
  have start : SchemaDef.add .definition
      { SchemaDef.empty with description := (s.definition.fromOrigin .definition).description }
      (s.definition.fromOrigin .definition) = .ok d :=
    started
  simp only [assembleDefinition, schemas_toDefinitions, written, schemaExtensions_toDefinitions,
    Bool.false_eq_true, if_false, start, bind, Except.bind]
  exact extended

/-- What is applied to the schema comes back, except what belongs to a definition that is
not written. -/
theorem mem_applications_of_reread
    (h : ofDefinitions s.toDefinitions = .ok s')
    {a : Directive} :
    a ∈ s'.definition.applications ↔
      ∃ o, ⟨o, a⟩ ∈ s.definition.directives ∧
        (o = .definition → s.definition.isImplicit s.types = false) := by
  obtain ⟨directives, types, definition, -, -, assembled, rfl⟩ := ofDefinitions_eq_ok_iff.mp h
  have extension : ∀ o, (∃ x ∈ s.definition.directives, x.origin = o) → o ≠ .definition →
      o ∈ s.definition.extensions := by
    rintro o ⟨x, hx, rfl⟩ ho
    exact Origin.mem_extensions_iff.mpr ⟨List.mem_append_left _ (List.mem_map_of_mem hx), ho⟩
  show a ∈ definition.applications ↔ _
  rw [mem_applications_assembleDefinition assembled, schemas_toDefinitions,
    schemaExtensions_toDefinitions]
  constructor
  · rintro ⟨text, htext, ha⟩
    rcases List.mem_append.mp htext with htext | htext
    · split at htext
      · cases htext
      · rename_i written
        rw [List.mem_singleton.mp htext] at ha
        exact ⟨.definition, Sourced.mem_fromOrigin_iff.mp ha, fun _ => by simpa using written⟩
    · obtain ⟨o, ho, rfl⟩ := List.mem_map.mp htext
      exact ⟨o, Sourced.mem_fromOrigin_iff.mp ha,
        fun e => absurd e (Origin.mem_extensions_iff.mp ho).2⟩
  · rintro ⟨o, ha, written⟩
    refine ⟨s.definition.fromOrigin o, ?_, Sourced.mem_fromOrigin_iff.mpr ha⟩
    by_cases ho : o = .definition
    · simp [ho, written ho]
    · exact List.mem_append_right _ (List.mem_map_of_mem (extension o ⟨_, ha, rfl⟩ ho))

/-- **Reading a schema again.**  The definitions that a schema with standard types is written
as make up a schema again, if the schema definition is among them.  All types come back, and all
directives that are not built in. -/
theorem ofDefinitions_toDefinitions
    (h : Standard s.types)
    (written : s.definition.isImplicit s.types = false) :
    ∃ s', ofDefinitions s.toDefinitions = .ok s' ∧
      (∀ n ∈ s.types.keys, n ∈ s'.types.keys) ∧
      ∀ d ∈ s.directives.items, d.builtIn = false → d.name ∈ s'.directives.keys := by
  have distinct : ((SystemDefinition.directives s.toDefinitions).map DirectiveDef.name).Nodup := by
    rw [directives_toDefinitions]
    exact s.directives.nodup.sublist (List.Sublist.map key List.filter_sublist)
  have builtIn : ∀ d ∈ BuiltIn.directives.items, d.builtIn = true := by decide
  obtain ⟨directives, added, keys⟩ := exists_addDirectives (t := BuiltIn.directives) distinct
    fun d _ old hold => builtIn old (Table.get?_eq_some_iff.mp hold).1
  obtain ⟨types, assembled, tkeys⟩ := exists_assembleTypes h
  obtain ⟨definition, hdef⟩ := exists_assembleDefinition types written
  refine ⟨_, ofDefinitions_eq_ok_iff.mpr ⟨_, _, _, added, assembled, hdef, rfl⟩, tkeys, ?_⟩
  intro d hd own
  refine keys d.name (Or.inl (List.mem_map_of_mem ?_))
  rw [directives_toDefinitions]
  exact List.mem_filter.mpr ⟨hd, by simp [own]⟩

end Wholes

end Schema

end Supergraph
