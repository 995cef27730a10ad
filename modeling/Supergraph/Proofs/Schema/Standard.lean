import Supergraph.Proofs.Schema.Rereading
import Supergraph.Validity

/-!
# Where standard types come from

A schema that is read from a text has standard types (`standard_of_parse`): nobody else can
define a type under a name of the language, and extensions only add to what is there.
Settling a schema keeps them standard, as it takes out and puts in nothing but built-in
scalars.
-/

namespace Supergraph
namespace Schema

section BuiltIns

theorem origins_builtIn :
    ∀ b ∈ BuiltIn.types.items, ∀ o ∈ b.body.origins, o ∈ [Origin.definition] := by
  decide +kernel

theorem kind_introspection :
    ∀ b ∈ BuiltIn.types.items, b.name ∈ BuiltIn.introspectionNames → b.kind ≠ .scalar := by
  decide +kernel

theorem builtIn_types :
    ∀ b ∈ BuiltIn.types.items, b.builtIn = true := by
  decide +kernel

end BuiltIns

namespace Standard

variable {types : Table TypeDef}

theorem put
    (h : Standard types)
    {t : TypeDef}
    (ht : t ∈ BuiltIn.types.items ∨ t.builtIn = false ∧ t.name ∉ BuiltIn.types.keys) :
    Standard (types.put t) where
  introspection := fun n hn => Table.mem_keys_put.mpr (Or.inr (h.introspection n hn))
  reserved := by
    intro u hu named
    rcases Table.mem_put_iff.mp hu with rfl | ⟨hu, -⟩
    · rcases ht with ht | ⟨-, other⟩
      · exact builtIn_types u ht
      · exact absurd named other
    · exact h.reserved u hu named
  grown := by
    intro u hu builtIn
    rcases Table.mem_put_iff.mp hu with rfl | ⟨hu, -⟩
    · rcases ht with ht | ⟨own, -⟩
      · exact ⟨u, ht, rfl, TypeBody.drawnFrom_self (origins_builtIn u ht)⟩
      · rw [own] at builtIn
        cases builtIn
    · exact h.grown u hu builtIn

/-- Only scalars of the language may be taken out. -/
theorem filter
    (h : Standard types)
    {p : TypeDef → Bool}
    (kept : ∀ t, t.isBuiltInScalar = false → p t = true) :
    Standard (types.filter p) where
  introspection := by
    intro n hn
    obtain ⟨t, ht, rfl⟩ := Table.mem_keys_iff.mp (h.introspection n hn)
    have builtIn : t.builtIn = true := h.reserved t ht (by
      rw [Table.keys, BuiltIn.types, List.map_append]
      exact List.mem_append_left _ hn)
    obtain ⟨b, hb, named, drawn⟩ := h.grown t ht builtIn
    have kind : t.kind ≠ .scalar := by
      have same : b.kind = t.kind := drawn.kind_eq
      rw [← same]
      exact kind_introspection b hb (named ▸ hn)
    have other : t.isBuiltInScalar = false := by
      simp [TypeDef.isBuiltInScalar, kind]
    exact Table.key_mem_keys (List.mem_filter.mpr ⟨ht, kept t other⟩)
  reserved := fun t ht => h.reserved t (List.mem_filter.mp ht).1
  grown := fun t ht => h.grown t (List.mem_filter.mp ht).1

end Standard

variable {s : Schema} {ds : List SystemDefinition}

/-- Settling puts in the scalars of the language that are missing. -/
theorem types_settle
    (s : Schema) :
    s.settle.types =
      ((BuiltIn.scalarNames.filter
          fun n => s.referredTypes.contains n && !s.types.contains n).map BuiltIn.scalar).foldl
        Table.put
        (s.types.filter fun t => !t.isBuiltInScalar || s.referredTypes.contains t.name) :=
  List.foldl_map.symm

theorem mem_of_mem_settle
    {t : TypeDef}
    (ht : t ∈ s.settle.types.items) :
    (∃ n ∈ BuiltIn.scalarNames, t = BuiltIn.scalar n) ∨ t ∈ s.types.items := by
  rw [types_settle] at ht
  rcases Table.mem_of_mem_foldl_put ht with added | kept
  · obtain ⟨n, hn, rfl⟩ := List.mem_map.mp added
    exact Or.inl ⟨n, (List.mem_filter.mp hn).1, rfl⟩
  · exact Or.inr (List.mem_filter.mp kept).1

theorem standard_settle
    (h : Standard s.types) :
    Standard s.settle.types := by
  have scalars : ∀ n ∈ BuiltIn.scalarNames, BuiltIn.scalar n ∈ BuiltIn.types.items := fun n hn =>
    List.mem_append_right _ (List.mem_map_of_mem hn)
  have putAll : ∀ (ns : List Name) (types : Table TypeDef), (∀ n ∈ ns, n ∈ BuiltIn.scalarNames) →
      Standard types → Standard (ns.foldl (fun ts n => ts.put (BuiltIn.scalar n)) types) := by
    intro ns
    induction ns with
    | nil => exact fun _ _ h => h
    | cons n ns ih =>
        intro types hns h
        exact ih _ (fun m hm => hns m (List.mem_cons_of_mem n hm))
          (h.put (Or.inl (scalars n (hns n List.mem_cons_self))))
  refine putAll _ _ (fun n hn => (List.mem_filter.mp hn).1) (h.filter fun t ht => ?_)
  simp [ht]

theorem assembleTypes_eq_ok
    {types : Table TypeDef}
    (h : assembleTypes ds = .ok types) :
    ∃ bs ts,
      BuiltIn.types.items.mapM
          (fun t => t.extendAll 0 (SystemDefinition.extensionsOf t.name ds)) = .ok bs ∧
        (SystemDefinition.types ds).mapM (assembleType ds) = .ok ts ∧
        types.items = bs ++ ts := by
  unfold assembleTypes at h
  simp only [bind, Except.bind] at h
  split at h
  · cases h
  · rename_i bs builtIn
    split at h
    · cases h
    · rename_i ts declared
      split at h
      · cases h
      · split at h
        · rename_i table all
          refine ⟨bs, ts, builtIn, declared, ?_⟩
          unfold Table.ofList? at all
          split at all
          · cases all
            cases h
            rfl
          · cases all
        · cases h

/-- A type that is declared is not built in. -/
theorem builtIn_of_assembleType
    {text : TypeText}
    {t : TypeDef}
    (h : assembleType ds text = .ok t) :
    t.builtIn = false := by
  unfold assembleType at h
  cases started : TypeDef.ofText text with
  | error e => rw [started] at h; cases h
  | ok u =>
      rw [started] at h
      have extended := TypeDef.extendAll_eq_ok h
      obtain ⟨body, -, rfl⟩ := TypeDef.add_eq_ok started
      exact extended.2.1

/-- A schema that is made up of definitions has standard types. -/
theorem standard_of_ofDefinitions
    (h : ofDefinitions ds = .ok s) :
    Standard s.types := by
  obtain ⟨-, types, -, -, assembled, -, rfl⟩ := ofDefinitions_eq_ok_iff.mp h
  obtain ⟨bs, ts, builtIn, declared, items⟩ := assembleTypes_eq_ok assembled
  have extended := mapM_eq_ok_iff.mp builtIn
  have texts := mapM_eq_ok_iff.mp declared
  have names : bs.map TypeDef.name = BuiltIn.types.keys :=
    map_eq_of_forall₂ (extended.imp fun _ _ hb => (TypeDef.extendAll_eq_ok hb).1)
  have grown : ∀ t ∈ bs, t.builtIn = true ∧
      ∃ b ∈ BuiltIn.types.items, b.name = t.name ∧ b.body.DrawnFrom [.definition] t.body := by
    intro t ht
    obtain ⟨b, hb, hbt⟩ := exists_of_mem_forall₂ extended ht
    obtain ⟨named, same, drawn⟩ := TypeDef.extendAll_eq_ok hbt
    exact ⟨same.trans (builtIn_types b hb), b, hb, named.symm,
      drawn _ _ (TypeBody.drawnFrom_self (origins_builtIn b hb))⟩
  have own : ∀ t ∈ ts, t.builtIn = false := by
    intro t ht
    obtain ⟨text, -, htext⟩ := exists_of_mem_forall₂ texts ht
    exact builtIn_of_assembleType htext
  have distinct := types.nodup
  rw [items, List.map_append, List.nodup_append] at distinct
  show Standard types
  constructor
  · intro n hn
    rw [Table.keys, items, List.map_append, List.mem_append]
    refine Or.inl ?_
    show n ∈ bs.map TypeDef.name
    rw [names, Table.keys, BuiltIn.types, List.map_append]
    exact List.mem_append_left _ hn
  · intro t ht reserved
    rw [items] at ht
    rcases List.mem_append.mp ht with ht | ht
    · exact (grown t ht).1
    · refine absurd rfl (distinct.2.2 t.name ?_ t.name (List.mem_map_of_mem ht))
      show t.name ∈ bs.map TypeDef.name
      rwa [names]
  · intro t ht builtIn
    rw [items] at ht
    rcases List.mem_append.mp ht with ht | ht
    · exact (grown t ht).2
    · rw [own t ht] at builtIn
      cases builtIn

/-- A schema with a text has standard types. -/
theorem standard_of_parse
    {sdl : String}
    (h : parse sdl = .ok s) :
    Standard s.types := by
  unfold parse at h
  split at h
  · cases h
  · split at h
    · cases h
    · exact standard_of_ofDefinitions h

end Schema
end Supergraph
