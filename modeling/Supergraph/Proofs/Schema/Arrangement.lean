import Supergraph.Proofs.Schema.Readable
import Supergraph.Proofs.Schema.Regrouping

/-!
# How schemas are arranged

Built-in definitions come first, in their order, and an author's own behind them
(`Arranged`, `Stacked`).  A built-in type may have grown by extensions.  A built-in directive
may have been replaced in its place, and its replacement is not built in any more.  All
schemas that are put together from definitions are arranged so.
-/

namespace Supergraph

section Lists

variable {α : Type} [Keyed α] {x : α} {xs ys : List α}

theorem putInto_append_of_mem
    (h : key x ∈ xs.map key) :
    putInto x (xs ++ ys) = putInto x xs ++ ys := by
  induction xs with
  | nil => cases h
  | cons z zs ih =>
      by_cases hzx : key z = key x
      · simp [putInto, hzx]
      · have later : key x ∈ zs.map key :=
          (List.mem_cons.mp h).resolve_left fun same => hzx same.symm
        simp [putInto, hzx, ih later]

theorem putInto_append_of_not_mem
    (h : key x ∉ xs.map key) :
    putInto x (xs ++ ys) = xs ++ putInto x ys := by
  induction xs with
  | nil => rfl
  | cons z zs ih =>
      rw [List.map_cons, List.mem_cons, not_or] at h
      have hzx : key z ≠ key x := fun same => h.1 same.symm
      simp [putInto, hzx, ih h.2]

theorem putInto_of_not_mem
    (h : key x ∉ xs.map key) :
    putInto x xs = xs ++ [x] := by
  have appended : putInto x (xs ++ []) = xs ++ [x] := putInto_append_of_not_mem h
  rwa [List.append_nil] at appended

theorem eq_or_mem_of_mem_putInto
    {y : α}
    (h : y ∈ putInto x xs) :
    y = x ∨ y ∈ xs := by
  induction xs with
  | nil => exact Or.inl (List.mem_singleton.mp h)
  | cons z zs ih =>
      unfold putInto at h
      split at h
      · exact (List.mem_cons.mp h).imp_right (List.mem_cons_of_mem z)
      · rcases List.mem_cons.mp h with rfl | h
        · exact Or.inr List.mem_cons_self
        · exact (ih h).imp_right (List.mem_cons_of_mem z)

end Lists

/-- The second definition is the first, or has taken its place. -/
def DirectiveDef.Replaces (b d : DirectiveDef) : Prop :=
  d = b ∨ (d.name = b.name ∧ d.builtIn = false)

/-- The second type is the first with nothing but extensions. -/
structure TypeDef.Grown (b t : TypeDef) : Prop where
  builtIn : t.builtIn = true
  definition : t.fromOrigin .definition = b.fromOrigin .definition

theorem TypeDef.Grown.name
    {b t : TypeDef}
    (h : b.Grown t) :
    t.name = b.name :=
  congrArg TypeText.name h.definition

namespace Schema

section Directives

variable {t t' : Table DirectiveDef} {ds : List DirectiveDef} {d : DirectiveDef}

/-- The built-in directives, or what replaces them, come first, and no others are built in. -/
def Stacked (t : Table DirectiveDef) : Prop :=
  ∃ front back, t.items = front ++ back ∧
    List.Forall₂ DirectiveDef.Replaces BuiltIn.directives.items front ∧
    ∀ d ∈ back, d.builtIn = false

theorem stacked_builtIn :
    Stacked BuiltIn.directives :=
  ⟨_, [], (List.append_nil _).symm, List.forall₂_same.mpr fun _ _ => Or.inl rfl, nofun⟩

theorem forall₂_putInto
    {bs front : List DirectiveDef}
    (h : List.Forall₂ DirectiveDef.Replaces bs front)
    (own : d.builtIn = false)
    (mem : key d ∈ front.map key) :
    List.Forall₂ DirectiveDef.Replaces bs (putInto d front) := by
  induction h with
  | nil => cases mem
  | @cons b e bs front replaces rest ih =>
      unfold putInto
      split
      · rename_i same
        have named : e.name = b.name := by
          rcases replaces with rfl | ⟨named, -⟩
          · rfl
          · exact named
        exact .cons (Or.inr ⟨(show d.name = e.name from same.symm).trans named, own⟩) rest
      · rename_i other
        exact .cons replaces
          (ih ((List.mem_cons.mp mem).resolve_left fun same => other same.symm))

theorem Stacked.put
    (h : Stacked t)
    (own : d.builtIn = false) :
    Stacked (t.put d) := by
  obtain ⟨front, back, items, replaced, others⟩ := h
  have put : (t.put d).items = putInto d (front ++ back) := congrArg (putInto d) items
  by_cases mem : key d ∈ front.map key
  · exact ⟨_, back, put.trans (putInto_append_of_mem mem), forall₂_putInto replaced own mem, others⟩
  · refine ⟨front, _, put.trans (putInto_append_of_not_mem mem), replaced, fun e he => ?_⟩
    rcases eq_or_mem_of_mem_putInto he with rfl | he
    · exact own
    · exact others e he

theorem stacked_of_addDirectives
    (h : Stacked t)
    (own : ∀ d ∈ ds, d.builtIn = false)
    (added : addDirectives t ds = .ok t') :
    Stacked t' := by
  induction ds generalizing t with
  | nil =>
      cases added
      exact h
  | cons d ds ih =>
      rw [List.forall_mem_cons] at own
      have rest := ih (h.put own.1) own.2
      unfold addDirectives at added
      split at added
      · split at added
        · exact rest added
        · cases added
      · exact rest added

/-- Definitions under new names are added at the end. -/
theorem addDirectives_append
    (distinct : ((t.items ++ ds).map key).Nodup) :
    ∃ t', addDirectives t ds = .ok t' ∧ t'.items = t.items ++ ds := by
  induction ds generalizing t with
  | nil => exact ⟨t, rfl, (List.append_nil _).symm⟩
  | cons d ds ih =>
      have fresh : key d ∉ t.items.map key := by
        rw [List.map_append, List.map_cons, List.nodup_middle, List.nodup_cons] at distinct
        exact fun mem => distinct.1 (List.mem_append_left _ mem)
      have put : (t.put d).items = t.items ++ [d] := putInto_of_not_mem fresh
      have absent : t.get? d.name = none := by
        refine Option.eq_none_iff_forall_ne_some.mpr fun e found => fresh ?_
        exact Table.mem_keys_of_get? found
      obtain ⟨t', added, items⟩ := ih (t := t.put d) (by rwa [put, List.append_assoc])
      refine ⟨t', ?_, by rw [items, put, List.append_assoc]; rfl⟩
      unfold addDirectives
      simp only [absent, added]

/-- What replaces built-in definitions is put in their places again. -/
theorem addDirectives_replaces
    (ds : List DirectiveDef)
    {bs front : List DirectiveDef}
    (replaced : List.Forall₂ DirectiveDef.Replaces bs front)
    (builtIn : ∀ b ∈ bs, b.builtIn = true)
    (done : List DirectiveDef)
    (items : t.items = done ++ bs) :
    ∃ t', t'.items = done ++ front ∧
      addDirectives t (front.filter (fun d => !d.builtIn) ++ ds) = addDirectives t' ds := by
  induction replaced generalizing done t with
  | nil => exact ⟨t, items, rfl⟩
  | @cons b d bs front replaces _ ih =>
      rw [List.forall_mem_cons] at builtIn
      rcases replaces with rfl | ⟨named, own⟩
      · obtain ⟨t', items', rest⟩ := ih builtIn.2 (done ++ [d]) (by rw [items]; simp)
        refine ⟨t', by rw [items']; simp, ?_⟩
        rw [List.filter_cons_of_neg (by simp [builtIn.1])]
        exact rest
      · have found : t.get? d.name = some b := by
          rw [named]
          exact Table.get?_key (by rw [items]; simp)
        have fresh : key d ∉ done.map key := by
          have distinct := t.nodup
          rw [items, List.map_append, List.map_cons, List.nodup_middle, List.nodup_cons] at distinct
          intro mem
          exact distinct.1 (List.mem_append_left _ (show b.name ∈ _ from named ▸ mem))
        have put : (t.put d).items = (done ++ [d]) ++ bs := by
          have head : putInto d (b :: bs) = d :: bs := if_pos named.symm
          have put : (t.put d).items = putInto d (done ++ b :: bs) := congrArg (putInto d) items
          rw [put, putInto_append_of_not_mem fresh, head]
          simp
        obtain ⟨t', items', rest⟩ := ih (t := t.put d) builtIn.2 (done ++ [d]) put
        refine ⟨t', by rw [items']; simp, ?_⟩
        rw [List.filter_cons_of_pos (by simp [own]), List.cons_append, addDirectives]
        simp only [found, builtIn.1, if_true]
        exact rest

/-- The directives of a schema come back from those that are written. -/
theorem Stacked.addDirectives_eq
    (h : Stacked t) :
    addDirectives BuiltIn.directives (t.items.filter (fun d => !d.builtIn)) = .ok t := by
  obtain ⟨front, back, items, replaced, others⟩ := h
  have builtIn : ∀ b ∈ BuiltIn.directives.items, b.builtIn = true := by decide
  have own : back.filter (fun d => !d.builtIn) = back :=
    List.filter_eq_self.mpr fun d hd => by simp [others d hd]
  obtain ⟨t₁, items₁, rest⟩ := addDirectives_replaces back replaced builtIn [] rfl
  have distinct : ((t₁.items ++ back).map key).Nodup := by
    rw [items₁, List.nil_append, ← items]
    exact t.nodup
  obtain ⟨t₂, added, items₂⟩ := addDirectives_append distinct
  have same : t₂ = t := Table.ext (by rw [items₂, items₁, items]; rfl)
  rw [items, List.filter_append, own, rest, added, same]

end Directives

section Types

variable {types : Table TypeDef} {ds : List SystemDefinition}

/-- The built-in types come first, extended at the most, and no others are built in. -/
def Arranged (types : Table TypeDef) : Prop :=
  ∃ front back, types.items = front ++ back ∧
    List.Forall₂ TypeDef.Grown BuiltIn.types.items front ∧
    ∀ t ∈ back, t.builtIn = false

theorem Arranged.keys
    (h : Arranged types)
    {n : Name}
    (hn : n ∈ BuiltIn.types.keys) :
    n ∈ types.keys := by
  obtain ⟨front, back, items, grown, -⟩ := h
  have names : front.map TypeDef.name = BuiltIn.types.keys :=
    map_eq_of_forall₂ (grown.imp fun _ _ h => h.name)
  rw [← names] at hn
  rw [Table.keys, items, List.map_append]
  exact List.mem_append_left _ hn

theorem Arranged.put
    (h : Arranged types)
    {t : TypeDef}
    (own : t.builtIn = false)
    (free : t.name ∉ BuiltIn.types.keys) :
    Arranged (types.put t) := by
  obtain ⟨front, back, items, grown, others⟩ := h
  have names : front.map TypeDef.name = BuiltIn.types.keys :=
    map_eq_of_forall₂ (grown.imp fun _ _ h => h.name)
  rw [← names] at free
  have put : (types.put t).items = putInto t (front ++ back) := congrArg (putInto t) items
  refine ⟨front, _, put.trans (putInto_append_of_not_mem free), grown, fun u hu => ?_⟩
  rcases eq_or_mem_of_mem_putInto hu with rfl | hu
  · exact own
  · exact others u hu

/-- Extensions leave the definition of a type as it is. -/
theorem fromOrigin_extendAll
    {t u : TypeDef}
    {index : Nat}
    {es : List TypeText}
    (extended : t.extendAll index es = .ok u) :
    u.fromOrigin .definition = t.fromOrigin .definition := by
  induction es generalizing t index with
  | nil => cases extended; rfl
  | cons e es ih =>
      cases added : t.add (.extension index) e with
      | error err =>
          rw [TypeDef.extendAll, added] at extended
          cases extended
      | ok t₁ =>
          rw [TypeDef.extendAll, added] at extended
          obtain ⟨body, contents, rfl⟩ := TypeDef.add_eq_ok added
          have apart := Origin.extension_ne_definition index
          rw [ih extended, TypeDef.fromOrigin, TypeDef.fromOrigin, Sourced.fromOrigin_append,
            Sourced.fromOrigin_allFrom_of_ne apart, List.append_nil,
            (TypeBody.added_of_add contents).fromOrigin_of_ne apart]

theorem arranged_of_assembleTypes
    (assembled : assembleTypes ds = .ok types) :
    Arranged types := by
  obtain ⟨bs, ts, builtIn, declared, items⟩ := assembleTypes_eq_ok assembled
  refine ⟨bs, ts, items, ?_, fun t ht => ?_⟩
  · have all := (List.forall₂_and_left _ _).mpr ⟨builtIn_types, mapM_eq_ok_iff.mp builtIn⟩
    refine all.imp fun b t ⟨own, extended⟩ => ?_
    exact ⟨(TypeDef.extendAll_eq_ok extended).2.1.trans own, fromOrigin_extendAll extended⟩
  · obtain ⟨text, -, assembled⟩ := exists_of_mem_forall₂ (mapM_eq_ok_iff.mp declared) ht
    exact builtIn_of_assembleType assembled

end Types

section Wholes

variable {s : Schema}

/-- **What is parsed is arranged.** -/
theorem arranged_of_parse
    {sdl : String}
    (h : parse sdl = .ok s) :
    Arranged s.types ∧ Stacked s.directives ∧
      ∀ n ∈ s.introspection, n ∈ BuiltIn.introspectionNames := by
  obtain ⟨ds, made, readable⟩ := exists_ofDefinitions_of_parse h
  obtain ⟨directives, types, definition, added, assembled, -, rfl⟩ :=
    ofDefinitions_eq_ok_iff.mp made
  refine ⟨arranged_of_assembleTypes assembled,
    stacked_of_addDirectives stacked_builtIn ?_ added, ?_⟩
  · intro d hd
    exact (readable _ (SystemDefinition.mem_of_mem_directives hd)).2
  · exact fun n hn => (List.mem_filter.mp hn).1

end Wholes

end Schema

end Supergraph
