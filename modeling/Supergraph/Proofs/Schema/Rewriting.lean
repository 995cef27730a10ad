import Mathlib.Data.List.Perm.Subperm
import Supergraph.Proofs.Schema.ReadBack

/-!
# Writing what was read back

What a settled schema is read as is written as the same text as soon as it is settled, too
(`ReadBack.toDefinitions_settle`).  Without the members of a vocabulary, both are written with
the same definitions unless a scalar of the language that nothing refers to is extended
(`ReadBack.toDefinitions_elide_perm_iff`), and in the same order unless applications that are
left out have a part in it (`ReadBack.toDefinitions_elide_eq_iff`).
-/

namespace Supergraph

section Lists

variable {α β γ : Type} {xs : List α} {ys : List β}

theorem flatMap_filter
    (p : α → Bool)
    (f : α → List γ)
    (xs : List α) :
    (xs.filter p).flatMap f = xs.flatMap fun x => if p x then f x else [] := by
  induction xs with
  | nil => rfl
  | cons x xs ih => cases hx : p x <;> simp [hx, ih]

theorem flatMap_eq_of_forall₂
    {f : α → List γ}
    {g : β → List γ}
    (h : List.Forall₂ (fun x y => g y = f x) xs ys) :
    ys.flatMap g = xs.flatMap f := by
  induction h with
  | nil => rfl
  | cons hxy _ ih => rw [List.flatMap_cons, List.flatMap_cons, hxy, ih]

theorem length_flatMap_le_of_forall₂
    {f : α → List γ}
    {g : β → List γ}
    (h : List.Forall₂ (fun x y => (g y).Subperm (f x)) xs ys) :
    (ys.flatMap g).length ≤ (xs.flatMap f).length := by
  induction h with
  | nil => exact Nat.le_refl _
  | cons head _ ih =>
      rw [List.flatMap_cons, List.flatMap_cons, List.length_append, List.length_append]
      exact Nat.add_le_add head.length_le ih

/-- Where nothing new comes, nothing is missing just if nothing is missing anywhere. -/
theorem flatMap_perm_iff_of_forall₂
    {f : α → List γ}
    {g : β → List γ}
    (h : List.Forall₂ (fun x y => (g y).Subperm (f x)) xs ys) :
    (ys.flatMap g).Perm (xs.flatMap f) ↔ List.Forall₂ (fun x y => (g y).Perm (f x)) xs ys := by
  induction h with
  | nil => exact iff_of_true (.refl _) .nil
  | @cons x y xs ys head tail ih =>
      rw [List.forall₂_cons, ← ih, List.flatMap_cons, List.flatMap_cons]
      refine ⟨fun whole => ?_, fun parts => parts.1.append parts.2⟩
      have rest := length_flatMap_le_of_forall₂ tail
      have length := whole.length_eq
      rw [List.length_append, List.length_append] at length
      have first : (g y).Perm (f x) := head.perm_of_length_le (by omega)
      exact ⟨first, (List.perm_append_left_iff _).mp (whole.trans (first.symm.append_right _))⟩

/-- Where the parts have the lengths they had, all is the same just if every part is. -/
theorem flatMap_eq_iff_of_forall₂
    {f : α → List γ}
    {g : β → List γ}
    (h : List.Forall₂ (fun x y => (g y).Perm (f x)) xs ys) :
    ys.flatMap g = xs.flatMap f ↔ List.Forall₂ (fun x y => g y = f x) xs ys := by
  induction h with
  | nil => exact iff_of_true rfl .nil
  | cons head _ ih =>
      rw [List.forall₂_cons, ← ih, List.flatMap_cons, List.flatMap_cons]
      exact ⟨fun whole => List.append_inj whole head.length_eq,
        fun parts => congrArg₂ (· ++ ·) parts.1 parts.2⟩

/-- A relation that amounts to a property of the first member. -/
theorem forall₂_iff_forall_mem
    {Q R : α → β → Prop}
    {p : α → Prop}
    (h : List.Forall₂ Q xs ys)
    (same : ∀ x y, Q x y → (R x y ↔ p x)) :
    List.Forall₂ R xs ys ↔ ∀ x ∈ xs, p x := by
  induction h with
  | nil => exact iff_of_true .nil nofun
  | cons head _ ih => rw [List.forall₂_cons, List.forall_mem_cons, same _ _ head, ih]

theorem mem_flatMap_of_forall₂
    {f : α → List γ}
    {g : β → List γ}
    (h : List.Forall₂ (fun x y => ∀ c, c ∈ g y ↔ c ∈ f x) xs ys)
    (c : γ) :
    c ∈ ys.flatMap g ↔ c ∈ xs.flatMap f := by
  induction h with
  | nil => rfl
  | cons hxy _ ih => rw [List.flatMap_cons, List.flatMap_cons, List.mem_append, List.mem_append,
      hxy, ih]

end Lists

namespace Schema

variable {s s' : Schema} {t u : TypeDef}

section References

theorem partTypeNames_alike
    (h : t.Alike u)
    (n : Name) :
    n ∈ partTypeNames u ↔ n ∈ partTypeNames t := by
  have fields := h.fields.flatMap_right fun f => f.type.innermost :: argumentTypeNames f.arguments
  have inputs := h.inputFields.map fun v => v.type.innermost
  exact (fields.append inputs).mem_iff

theorem partTypeNames_of_isBuiltInScalar
    (scalar : t.isBuiltInScalar = true) :
    partTypeNames t = [] := by
  rw [partTypeNames, TypeDef.body_of_isBuiltInScalar scalar]
  rfl

end References

namespace TypeReadBack

variable (h : s.TypeReadBack t u)

include h

theorem name : u.name = t.name := by
  cases h with
  | regrouped _ parts => exact parts.name
  | renewed _ _ plain => rw [plain]; rfl

theorem kind : u.kind = t.kind := by
  cases h with
  | regrouped _ parts => exact parts.kind
  | renewed spare _ plain =>
      rw [plain, TypeDef.kind, TypeDef.kind, TypeDef.body_of_isBuiltInScalar spare.1]
      rfl

theorem alike
    (kept : ¬ s.Spare t) :
    t.Alike u := by
  cases h with
  | regrouped _ parts =>
      exact parts.alike (Origin.numbers_renumber _) (List.Subset.refl _)
  | renewed spare => exact absurd spare kept

theorem partTypeNames
    (n : Name) :
    n ∈ Schema.partTypeNames u ↔ n ∈ Schema.partTypeNames t := by
  by_cases spare : s.Spare t
  · cases h with
    | regrouped kept => exact absurd spare kept
    | renewed _ _ plain => rw [partTypeNames_of_isBuiltInScalar spare.1, plain]; rfl
  · exact partTypeNames_alike (h.alike spare) n

end TypeReadBack

namespace ReadBack

variable (h : s.ReadBack s')

include h

theorem mem_referredTypes
    {n : Name} :
    n ∈ s'.referredTypes ↔ n ∈ s.referredTypes := by
  rw [referredTypes, referredTypes, List.mem_append, List.mem_append, h.directives]
  exact or_congr_left (mem_flatMap_of_forall₂ (h.types.imp fun _ _ h => h.partTypeNames) n)

theorem keys : s'.types.keys = s.types.keys :=
  map_eq_of_forall₂ (h.types.imp fun _ _ h => h.name)

theorem spare_iff
    (one : s.TypeReadBack t u) :
    s'.Spare u ↔ s.Spare t := by
  cases one with
  | regrouped kept parts =>
      have alike := parts.alike (Origin.numbers_renumber _) (List.Subset.refl _)
      rw [Spare, Spare, alike.isBuiltInScalar, alike.name, h.mem_referredTypes]
  | renewed spare _ plain =>
      refine iff_of_true ⟨?_, ?_⟩ spare
      · rw [plain]
        rfl
      · rw [plain, h.mem_referredTypes]
        exact spare.2

theorem type?_eq_none
    {n : Name}
    (absent : s.type? n = none) :
    s'.type? n = none := by
  refine Option.eq_none_iff_forall_ne_some.mpr fun u found => ?_
  have mem := Table.mem_keys_of_get? found
  rw [h.keys] at mem
  obtain ⟨t, ht, rfl⟩ := Table.mem_keys_iff.mp mem
  rw [show s.type? (key t) = some t from Table.get?_key ht] at absent
  cases absent

/-- What is found under a name is what the type of this name is read as. -/
theorem type?_eq_some
    {n : Name}
    (defined : s.type? n = some t) :
    ∃ u, s'.type? n = some u ∧ s.TypeReadBack t u := by
  obtain ⟨ht, named⟩ := Table.get?_eq_some_iff.mp defined
  obtain ⟨u, hu, one⟩ := exists_of_mem_forall₂_left h.types ht
  exact ⟨u, Table.get?_eq_some_iff.mpr ⟨hu, one.name.trans named⟩, one⟩

end ReadBack

section Implied

/-- An implied root is an object type of the right name. -/
theorem impliedRoot?_eq_some_iff
    {types : Table TypeDef}
    {k : OperationKind}
    {n : Name} :
    impliedRoot? types k = some n ↔
      n = k.defaultRoot ∧ ∃ t ∈ types.items, t.name = n ∧ t.kind = .object := by
  unfold impliedRoot?
  constructor
  · intro implied
    split at implied
    · rename_i t found
      obtain ⟨ht, named⟩ := Table.get?_eq_some_iff.mp found
      split at implied
      · rename_i object
        cases implied
        exact ⟨named, t, ht, rfl, object⟩
      · cases implied
    · cases implied
  · rintro ⟨rfl, t, ht, named, object⟩
    have found : types.get? k.defaultRoot = some t := Table.get?_eq_some_iff.mpr ⟨ht, named⟩
    simp only [found, object, if_true, named]

/-- Roots are implied alike by types that agree in their object types. -/
theorem impliedRoot?_congr
    {types types' : Table TypeDef}
    (same : ∀ n, (∃ t ∈ types'.items, t.name = n ∧ t.kind = .object) ↔
      ∃ t ∈ types.items, t.name = n ∧ t.kind = .object)
    (k : OperationKind) :
    impliedRoot? types' k = impliedRoot? types k := by
  ext n
  rw [impliedRoot?_eq_some_iff, impliedRoot?_eq_some_iff, same]

end Implied

section Settled

/-- Settling takes out no object type. -/
theorem exists_object_settle_iff
    (scalars : ∀ n ∈ BuiltIn.scalarNames, n ∈ s.types.keys)
    (n : Name) :
    (∃ t ∈ s.settle.types.items, t.name = n ∧ t.kind = .object) ↔
      ∃ t ∈ s.types.items, t.name = n ∧ t.kind = .object := by
  constructor
  · rintro ⟨t, ht, object⟩
    exact ⟨t, ((mem_settle_iff scalars).mp ht).1, object⟩
  · rintro ⟨t, ht, named, object⟩
    refine ⟨t, (mem_settle_iff scalars).mpr ⟨ht, fun spare => ?_⟩, named, object⟩
    have scalar := spare.1
    simp [TypeDef.isBuiltInScalar, object] at scalar

theorem flatMap_settle
    {α : Type}
    (scalars : ∀ n ∈ BuiltIn.scalarNames, n ∈ s.types.keys)
    (f : TypeDef → List α) :
    s.settle.types.items.flatMap f = s.types.items.flatMap fun t =>
      if !t.isBuiltInScalar || s.referredTypes.contains t.name then f t else [] := by
  rw [items_settle scalars, flatMap_filter]

variable (h : s.ReadBack s') (scalars : ∀ n ∈ BuiltIn.scalarNames, n ∈ s.types.keys)

include h

theorem ReadBack.exists_object_iff
    (n : Name) :
    (∃ u ∈ s'.types.items, u.name = n ∧ u.kind = .object) ↔
      ∃ t ∈ s.types.items, t.name = n ∧ t.kind = .object := by
  constructor
  · rintro ⟨u, hu, named, object⟩
    obtain ⟨t, ht, one⟩ := exists_of_mem_forall₂ h.types hu
    exact ⟨t, ht, one.name.symm.trans named, one.kind.symm.trans object⟩
  · rintro ⟨t, ht, named, object⟩
    obtain ⟨u, hu, one⟩ := exists_of_mem_forall₂_left h.types ht
    exact ⟨u, hu, one.name.trans named, one.kind.trans object⟩

include scalars

/-- **What is read back is written as before**, once it is settled. -/
theorem ReadBack.toDefinitions_settle : s'.settle.toDefinitions = s.settle.toDefinitions := by
  have scalars' : ∀ n ∈ BuiltIn.scalarNames, n ∈ s'.types.keys := h.keys ▸ scalars
  have implied : ∀ k, impliedRoot? s'.settle.types k = impliedRoot? s.settle.types k :=
    impliedRoot?_congr fun n => by
      rw [exists_object_settle_iff scalars, exists_object_settle_iff scalars', h.exists_object_iff]
  have definition : s'.settle.definition.toDefinitions s'.settle.types =
      s.settle.definition.toDefinitions s.settle.types :=
    h.definition.toDefinitions_eq (Origin.numbers_renumber _) implied
      (Origin.inOrder_self _)
  have directives : s'.settle.directives = s.settle.directives := h.directives
  have types : s'.settle.types.items.flatMap TypeDef.toDefinitions =
      s.settle.types.items.flatMap TypeDef.toDefinitions := by
    rw [flatMap_settle scalars, flatMap_settle scalars']
    refine flatMap_eq_of_forall₂ (h.types.imp fun t u one => ?_)
    have stays := (s'.stays_iff u).trans ((not_congr (h.spare_iff one)).trans (s.stays_iff t).symm)
    cases one with
    | regrouped kept parts =>
        rw [if_pos ((s.stays_iff t).mpr kept), if_pos (stays.mpr ((s.stays_iff t).mpr kept))]
        exact parts.toDefinitions_eq (Origin.numbers_renumber _) (Origin.inOrder_self _)
    | renewed spare =>
        have gone : ¬ (!t.isBuiltInScalar || s.referredTypes.contains t.name) = true :=
          fun stays => (s.stays_iff t).mp stays spare
        rw [if_neg gone, if_neg fun stays' => gone (stays.mp stays')]
  rw [toDefinitions, toDefinitions, definition, directives, types]

end Settled

section Elided

/-- Without hidden members, the extensions of a type or of the schema definition are written in
the same order once their parts are grouped by the extensions as they are with these members. -/
structure ElidesAlike (s : Schema) (hiddenType hidden : Hidden) : Prop where
  definition : (s.definition.elide hidden).GroupsAlike s.definition.extensions
  types : ∀ t ∈ s.types.items, hiddenType t.name = false →
    (t.elide hidden).GroupsAlike t.extensions

/-- Spare scalars are extended by nothing but hidden members. -/
def LeavesSpare (s : Schema) (hiddenType hidden : Hidden) : Prop :=
  ∀ t ∈ s.types.items, hiddenType t.name = false → s.Spare t →
    (t.elide hidden).extensions = []

section Extensions

variable {hidden : Hidden}

theorem mem_extensions_elideSourced
    {ds : List (Sourced Directive)}
    {os : List Origin}
    {o : Origin}
    (ho : o ∈ Origin.extensions ((Directive.elideSourced hidden ds).map Sourced.origin ++ os)) :
    o ∈ Origin.extensions (ds.map Sourced.origin ++ os) := by
  obtain ⟨mem, extension⟩ := Origin.mem_extensions_iff.mp ho
  refine Origin.mem_extensions_iff.mpr ⟨?_, extension⟩
  rcases List.mem_append.mp mem with mem | mem
  · exact List.mem_append_left _ ((List.filter_sublist.map Sourced.origin).subset mem)
  · exact List.mem_append_right _ mem

/-- All extensions stay if only applications in definitions are left out. -/
theorem extensions_elideSourced
    {ds : List (Sourced Directive)}
    (definition : ∀ x ∈ ds, hidden x.item.name = true → x.origin = .definition)
    (os : List Origin) :
    Origin.extensions ((Directive.elideSourced hidden ds).map Sourced.origin ++ os) =
      Origin.extensions (ds.map Sourced.origin ++ os) := by
  have same : ((Directive.elideSourced hidden ds).map Sourced.origin).filter
        (fun o => o ≠ .definition) =
      (ds.map Sourced.origin).filter (fun o => o ≠ .definition) := by
    rw [Directive.elideSourced, List.filter_map, List.filter_map, List.filter_filter]
    refine congrArg _ (List.filter_congr fun x hx => ?_)
    cases left : hidden x.item.name with
    | false => simp
    | true => simp [definition x hx left]
  rw [Origin.extensions, Origin.extensions, List.filter_append, List.filter_append, same]

theorem origins_elide
    (hidden : Hidden)
    (b : TypeBody) :
    (b.elide hidden).origins = b.origins := by
  cases b <;> simp [TypeBody.elide, TypeBody.origins, Table.mapValues, Function.comp_def]

theorem extensions_elide
    (t : TypeDef) :
    (t.elide hidden).extensions =
      Origin.extensions ((Directive.elideSourced hidden t.directives).map Sourced.origin ++
        t.body.origins) := by
  rw [← origins_elide hidden t.body]
  rfl

theorem extensions_elide_subset
    (hidden : Hidden)
    (t : TypeDef) :
    (t.elide hidden).extensions ⊆ t.extensions := by
  intro o ho
  rw [extensions_elide] at ho
  exact mem_extensions_elideSourced ho

theorem extensions_elide_definition_subset
    (hidden : Hidden)
    (d : SchemaDef) :
    (d.elide hidden).extensions ⊆ d.extensions :=
  fun _ ho => mem_extensions_elideSourced ho

/-- Hidden applications in definitions have no part in the order of extensions. -/
theorem elidesAlike_of_definition
    (hiddenType : Hidden)
    (definition : ∀ x ∈ s.definition.directives, hidden x.item.name = true →
      x.origin = .definition)
    (types : ∀ t ∈ s.types.items, ∀ x ∈ t.directives, hidden x.item.name = true →
      x.origin = .definition) :
    s.ElidesAlike hiddenType hidden := by
  constructor
  · have same : (s.definition.elide hidden).extensions = s.definition.extensions :=
      extensions_elideSourced definition _
    refine SchemaDef.groupsAlike_of_inOrder (Origin.numbers_renumber _) ?_
    rw [same]
    exact Origin.inOrder_self _
  · intro t ht _
    have same : (t.elide hidden).extensions = t.extensions :=
      (extensions_elide t).trans (extensions_elideSourced (types t ht) _)
    refine TypeDef.groupsAlike_of_inOrder (Origin.numbers_renumber _) ?_
    rw [same]
    exact Origin.inOrder_self _

end Extensions

theorem exists_object_elide_iff
    (hiddenType hidden : Hidden)
    (n : Name) :
    (∃ t ∈ (s.elide hiddenType hidden).types.items, t.name = n ∧ t.kind = .object) ↔
      hiddenType n = false ∧ ∃ t ∈ s.types.items, t.name = n ∧ t.kind = .object := by
  have kind : ∀ t : TypeDef, (t.elide hidden).kind = t.kind := by
    rintro ⟨-, -, -, -, body⟩
    cases body <;> rfl
  constructor
  · rintro ⟨_, mem, named, object⟩
    obtain ⟨t, ht, rfl⟩ := List.mem_map.mp mem
    obtain ⟨ht, shown⟩ := List.mem_filter.mp ht
    have named : t.name = n := named
    exact ⟨by simpa [named] using shown, t, ht, named, (kind t).symm.trans object⟩
  · rintro ⟨shown, t, ht, rfl, object⟩
    refine ⟨t.elide hidden, List.mem_map_of_mem (List.mem_filter.mpr ⟨ht, ?_⟩), rfl,
      (kind t).trans object⟩
    simp [shown]

/-- The definitions of a type that are left without hidden members. -/
def shownDefinitions (hiddenType hidden : Hidden) (t : TypeDef) : List SystemDefinition :=
  if hiddenType t.name then [] else (t.elide hidden).toDefinitions

theorem toDefinitions_elide
    (hiddenType hidden : Hidden)
    (s : Schema) :
    (s.elide hiddenType hidden).toDefinitions =
      (s.definition.elide hidden).toDefinitions (s.elide hiddenType hidden).types ++
          ((s.elide hiddenType hidden).directives.items.filter fun d => !d.builtIn).map
            .directive ++
        s.types.items.flatMap (shownDefinitions hiddenType hidden) := by
  have types : (s.elide hiddenType hidden).types.items.flatMap TypeDef.toDefinitions =
      s.types.items.flatMap (shownDefinitions hiddenType hidden) := by
    show ((s.types.items.filter fun t => !hiddenType t.name).map
      (TypeDef.elide hidden)).flatMap TypeDef.toDefinitions = _
    rw [List.flatMap_map, flatMap_filter]
    refine List.flatMap_congr fun t _ => ?_
    cases shown : hiddenType t.name <;> simp [shownDefinitions, shown]
  rw [toDefinitions, types]
  rfl

/-- What is read back of a spare scalar is not written. -/
theorem toDefinitions_elide_renewed
    (hidden : Hidden)
    (spare : s.Spare t)
    (plain : u = BuiltIn.scalar t.name) :
    (u.elide hidden).toDefinitions = [] ∧
      (t.elide hidden).toDefinitions =
        ((t.elide hidden).extensions.map (t.elide hidden).fromOrigin).map .typeExtension := by
  have builtIn : (t.elide hidden).builtIn = true := ((Bool.and_eq_true _ _).mp spare.1).1
  refine ⟨by rw [plain]; rfl, ?_⟩
  rw [TypeDef.toDefinitions_eq, builtIn]
  rfl

namespace TypeReadBack

variable (one : s.TypeReadBack t u) (hiddenType hidden : Hidden)

include one

/-- Nothing is written of a type that is read back, without hidden members, but what was. -/
theorem shownDefinitions_subperm :
    (shownDefinitions hiddenType hidden u).Subperm (shownDefinitions hiddenType hidden t) := by
  rw [shownDefinitions, shownDefinitions, one.name]
  split
  · exact List.nil_subperm
  · cases one with
    | regrouped _ parts =>
        exact ((parts.elide hidden).toDefinitions_perm (Origin.numbers_renumber _)
          (extensions_elide_subset hidden t)).subperm
    | renewed spare _ plain =>
        rw [(toDefinitions_elide_renewed hidden spare plain).1]
        exact List.nil_subperm

/-- The same extensions are written, unless it is a spare scalar that is extended. -/
theorem shownDefinitions_perm_iff :
    (shownDefinitions hiddenType hidden u).Perm (shownDefinitions hiddenType hidden t) ↔
      (hiddenType t.name = false → s.Spare t → (t.elide hidden).extensions = []) := by
  rw [shownDefinitions, shownDefinitions, one.name]
  cases shown : hiddenType t.name with
  | true => exact iff_of_true (.refl _) nofun
  | false =>
      simp only [Bool.false_eq_true, if_false, forall_const]
      cases one with
      | regrouped kept parts =>
          exact iff_of_true ((parts.elide hidden).toDefinitions_perm (Origin.numbers_renumber _)
            (extensions_elide_subset hidden t)) fun spare => absurd spare kept
      | renewed spare _ plain =>
          obtain ⟨none, extensions⟩ := toDefinitions_elide_renewed hidden spare plain
          rw [none, extensions, List.nil_perm, List.map_eq_nil_iff, List.map_eq_nil_iff]
          exact ⟨fun unextended _ => unextended, fun unextended => unextended spare⟩

/-- They are written in the same order just if grouping leaves them as they are. -/
theorem shownDefinitions_eq_iff
    (spare : hiddenType t.name = false → s.Spare t → (t.elide hidden).extensions = []) :
    shownDefinitions hiddenType hidden u = shownDefinitions hiddenType hidden t ↔
      (hiddenType t.name = false → (t.elide hidden).GroupsAlike t.extensions) := by
  rw [shownDefinitions, shownDefinitions, one.name]
  cases shown : hiddenType t.name with
  | true => exact iff_of_true rfl nofun
  | false =>
      simp only [Bool.false_eq_true, if_false, forall_const]
      have subset := extensions_elide_subset hidden t
      cases one with
      | regrouped _ parts =>
          exact (parts.elide hidden).toDefinitions_eq_iff (Origin.numbers_renumber _) subset
      | renewed unused _ plain =>
          have unextended := spare shown unused
          obtain ⟨none, extensions⟩ := toDefinitions_elide_renewed hidden unused plain
          have ungrouped : (t.elide hidden).extensionsBy t.extensions = [] := by
            have perm := TypeDef.extensionsBy_perm (Origin.numbers_renumber _) subset
            rw [unextended] at perm
            exact perm.eq_nil
          rw [unextended] at extensions
          refine iff_of_true (none.trans extensions.symm) ?_
          rw [TypeDef.GroupsAlike, ungrouped, unextended]

end TypeReadBack

namespace ReadBack

variable (h : s.ReadBack s') (hiddenType hidden : Hidden)

include h

theorem impliedRoot?_elide
    (k : OperationKind) :
    impliedRoot? (s'.elide hiddenType hidden).types k =
      impliedRoot? (s.elide hiddenType hidden).types k :=
  impliedRoot?_congr (fun n => by
    rw [exists_object_elide_iff, exists_object_elide_iff, h.exists_object_iff]) k

theorem directives_elide :
    (s'.elide hiddenType hidden).directives = (s.elide hiddenType hidden).directives := by
  simp only [elide, h.directives]

/-- **What is read back is written with the same definitions without hidden members, too**,
unless a spare scalar is extended. -/
theorem toDefinitions_elide_perm_iff :
    (s'.elide hiddenType hidden).toDefinitions.Perm (s.elide hiddenType hidden).toDefinitions ↔
      s.LeavesSpare hiddenType hidden := by
  have definition := (h.definition.elide hidden).toDefinitions_perm (Origin.numbers_renumber _)
    (h.impliedRoot?_elide hiddenType hidden) (extensions_elide_definition_subset _ _)
  have types := flatMap_perm_iff_of_forall₂
    (h.types.imp fun _ _ one => one.shownDefinitions_subperm hiddenType hidden)
  rw [toDefinitions_elide, toDefinitions_elide, h.directives_elide]
  have front := definition.append_right
    (((s.elide hiddenType hidden).directives.items.filter (fun d => !d.builtIn)).map .directive)
  rw [LeavesSpare, ← forall₂_iff_forall_mem h.types fun _ _ one =>
    one.shownDefinitions_perm_iff hiddenType hidden, ← types]
  exact ⟨fun whole => (List.perm_append_left_iff _).mp ((front.append_right _).symm.trans whole),
    front.append⟩

/-- They are in the same order just if, besides, hidden applications have no part in the order
of extensions. -/
theorem toDefinitions_elide_eq_iff :
    (s'.elide hiddenType hidden).toDefinitions = (s.elide hiddenType hidden).toDefinitions ↔
      s.LeavesSpare hiddenType hidden ∧ s.ElidesAlike hiddenType hidden := by
  have implied := h.impliedRoot?_elide hiddenType hidden
  have regrouped := h.definition.elide hidden
  have subset := extensions_elide_definition_subset hidden s.definition
  have perm := regrouped.toDefinitions_perm (Origin.numbers_renumber _) implied subset
  have definition := regrouped.toDefinitions_eq_iff (Origin.numbers_renumber _) implied subset
  have types : s.LeavesSpare hiddenType hidden →
      (s'.types.items.flatMap (shownDefinitions hiddenType hidden) =
          s.types.items.flatMap (shownDefinitions hiddenType hidden) ↔
        ∀ t ∈ s.types.items, hiddenType t.name = false →
          (t.elide hidden).GroupsAlike t.extensions) := by
    intro spare
    have both := (List.forall₂_and_left _ _).mpr ⟨spare, h.types⟩
    rw [flatMap_eq_iff_of_forall₂ (both.imp fun _ _ h =>
      (h.2.shownDefinitions_perm_iff hiddenType hidden).mpr h.1)]
    exact forall₂_iff_forall_mem both fun _ _ h => h.2.shownDefinitions_eq_iff _ _ h.1
  constructor
  · intro same
    have spare := (h.toDefinitions_elide_perm_iff hiddenType hidden).mp (.of_eq same)
    rw [toDefinitions_elide, toDefinitions_elide, h.directives_elide] at same
    obtain ⟨front, back⟩ := List.append_inj same (perm.append_right _).length_eq
    obtain ⟨front, -⟩ := List.append_inj front perm.length_eq
    exact ⟨spare, definition.mp front, (types spare).mp back⟩
  · rintro ⟨spare, alike⟩
    rw [toDefinitions_elide, toDefinitions_elide, h.directives_elide,
      definition.mpr alike.definition, (types spare).mpr alike.types]

end ReadBack

end Elided

end Schema

end Supergraph
