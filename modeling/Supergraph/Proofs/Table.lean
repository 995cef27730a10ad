import Supergraph.Table
import Mathlib.Data.List.Nodup

/-!
# Reading tables

What a table holds under a name after each of its operations.  The names of a
table are distinct, so a value is found under its name as soon as it is in the
table (`get?_eq_some_iff`); putting a value in changes what is found under that
name and nothing else (`get?_put_self`, `get?_put_of_ne`), and folding over
several values does so for each of them.
-/

namespace Supergraph

section Lists

variable {α : Type} [Keyed α]

theorem mem_putInto_iff
    {x y : α}
    {xs : List α}
    (h : (xs.map key).Nodup) :
    y ∈ putInto x xs ↔ y = x ∨ (y ∈ xs ∧ key y ≠ key x) := by
  induction xs with
  | nil => simp [putInto]
  | cons z zs ih =>
      rw [List.map_cons, List.nodup_cons] at h
      obtain ⟨hz, hzs⟩ := h
      by_cases hzx : key z = key x
      · have hne : ∀ w ∈ zs, key w ≠ key x := by
          intro w hw hwx
          exact hz (List.mem_map.mpr ⟨w, hw, hwx.trans hzx.symm⟩)
        simp only [putInto, hzx, if_true, List.mem_cons]
        constructor
        · rintro (rfl | hy)
          · exact Or.inl rfl
          · exact Or.inr ⟨Or.inr hy, hne y hy⟩
        · rintro (rfl | ⟨rfl | hy, hyx⟩)
          · exact Or.inl rfl
          · exact absurd hzx hyx
          · exact Or.inr hy
      · simp only [putInto, hzx, if_false, List.mem_cons, ih hzs]
        constructor
        · rintro (rfl | rfl | ⟨hy, hyx⟩)
          · exact Or.inr ⟨Or.inl rfl, hzx⟩
          · exact Or.inl rfl
          · exact Or.inr ⟨Or.inr hy, hyx⟩
        · rintro (rfl | ⟨rfl | hy, hyx⟩)
          · exact Or.inr (Or.inl rfl)
          · exact Or.inl rfl
          · exact Or.inr (Or.inr ⟨hy, hyx⟩)

/-- Where values of the name of `x` do not count, putting `x` in makes no difference. -/
theorem filter_putInto
    {p : α → Bool}
    {x : α}
    {xs : List α}
    (hx : p x = false)
    (hxs : ∀ y ∈ xs, key y = key x → p y = false) :
    (putInto x xs).filter p = xs.filter p := by
  induction xs with
  | nil => simp [putInto, hx]
  | cons z zs ih =>
      have ih' := ih (fun y hy => hxs y (List.mem_cons_of_mem z hy))
      by_cases hzx : key z = key x
      · have hz : p z = false := hxs z List.mem_cons_self hzx
        simp [putInto, hzx, hx, hz]
      · simp only [putInto, hzx, if_false, List.filter_cons, ih']

theorem putInto_eq_self
    {x : α}
    {xs : List α}
    (h : lookup (key x) xs = some x) :
    putInto x xs = xs := by
  induction xs with
  | nil => cases h
  | cons z zs ih =>
      by_cases hzx : key z = key x
      · have hz : z = x := by simpa [lookup, hzx] using h
        simp only [putInto, if_true, hz]
      · have h' : lookup (key x) zs = some x := by simpa [lookup, hzx] using h
        simp only [putInto, hzx, if_false, ih h']

end Lists

namespace Table

variable {α : Type} [Keyed α]

section Lookup

theorem mem_keys_iff
    {t : Table α}
    {k : Name} :
    k ∈ t.keys ↔ ∃ x ∈ t.items, key x = k :=
  List.mem_map

/-- The keys, where they are told one by one. -/
theorem keys_perm_of_mem_iff
    {t : Table α}
    {names : List Name}
    (distinct : names.Nodup)
    (same : ∀ n, n ∈ t.keys ↔ n ∈ names) :
    t.keys.Perm names :=
  (List.perm_ext_iff_of_nodup t.nodup distinct).mpr same

theorem key_mem_keys
    {t : Table α}
    {x : α}
    (h : x ∈ t.items) :
    key x ∈ t.keys :=
  List.mem_map.mpr ⟨x, h, rfl⟩

/-- A value of the table is found under its name, and nothing else is. -/
theorem get?_eq_some_iff
    {t : Table α}
    {k : Name}
    {x : α} :
    t.get? k = some x ↔ x ∈ t.items ∧ key x = k := by
  constructor
  · intro h
    exact ⟨List.mem_of_find?_eq_some h, by simpa using List.find?_some h⟩
  · rintro ⟨hx, rfl⟩
    cases hf : t.get? (key x) with
    | none =>
        have := List.find?_eq_none.mp hf x hx
        simp at this
    | some y =>
        have hy : y ∈ t.items := List.mem_of_find?_eq_some hf
        have hyx : key y = key x := by simpa using List.find?_some hf
        rw [List.inj_on_of_nodup_map t.nodup hy hx hyx]

theorem get?_key
    {t : Table α}
    {x : α}
    (h : x ∈ t.items) :
    t.get? (key x) = some x :=
  get?_eq_some_iff.mpr ⟨h, rfl⟩

theorem mem_keys_of_get?
    {t : Table α}
    {k : Name}
    {x : α}
    (h : t.get? k = some x) :
    k ∈ t.keys := by
  obtain ⟨hx, rfl⟩ := get?_eq_some_iff.mp h
  exact key_mem_keys hx

end Lookup

section Put

theorem mem_put_iff
    {t : Table α}
    {x y : α} :
    y ∈ (t.put x).items ↔ y = x ∨ (y ∈ t.items ∧ key y ≠ key x) :=
  mem_putInto_iff t.nodup

/-- A value that is there already is put in its own place. -/
theorem put_eq_self
    {t : Table α}
    {x : α}
    (h : t.get? (key x) = some x) :
    t.put x = t :=
  Table.ext (putInto_eq_self h)

/-- A value that is put in and marked at once leaves what is not marked as it was,
unless it takes the place of something that was not marked. -/
theorem filter_unmarked_put
    {t : Table α}
    {x : α}
    {marked marked' : Name → Bool}
    (marks : ∀ n, marked' n = true ↔ n = key x ∨ marked n = true)
    (free : ∀ y ∈ t.items, marked (key y) = false → key y ≠ key x) :
    (t.put x).items.filter (fun y => !marked' (key y)) =
      t.items.filter (fun y => !marked (key y)) := by
  have new : marked' (key x) = true := (marks _).mpr (Or.inl rfl)
  have same : ∀ y ∈ t.items, (!marked' (key y)) = !marked (key y) := by
    intro y hy
    by_cases hyx : key y = key x
    · have old : marked (key y) = true := by
        rw [← Bool.not_eq_false]
        exact fun unmarked => free y hy unmarked hyx
      rw [old, hyx, new]
    · congr 1
      rw [Bool.eq_iff_iff, marks, or_iff_right hyx]
  calc (t.put x).items.filter (fun y => !marked' (key y))
      = t.items.filter (fun y => !marked' (key y)) := by
        refine filter_putInto (by rw [new]; rfl) (fun y _ hyx => ?_)
        rw [hyx, new]
        rfl
    _ = t.items.filter (fun y => !marked (key y)) := List.filter_congr same

@[simp] theorem get?_put_self
    (t : Table α)
    (x : α) :
    (t.put x).get? (key x) = some x :=
  get?_eq_some_iff.mpr ⟨mem_put_iff.mpr (Or.inl rfl), rfl⟩

theorem get?_put_of_ne
    {t : Table α}
    {x : α}
    {k : Name}
    (h : k ≠ key x) :
    (t.put x).get? k = t.get? k := by
  ext y
  rw [get?_eq_some_iff, get?_eq_some_iff, mem_put_iff]
  constructor
  · rintro ⟨rfl | ⟨hy, _⟩, hk⟩
    · exact absurd hk.symm h
    · exact ⟨hy, hk⟩
  · rintro ⟨hy, rfl⟩
    exact ⟨Or.inr ⟨hy, h⟩, rfl⟩

@[simp] theorem mem_keys_put
    {t : Table α}
    {x : α}
    {k : Name} :
    k ∈ (t.put x).keys ↔ k = key x ∨ k ∈ t.keys := by
  by_cases h : key x ∈ t.keys
  · rw [keys_put_of_mem h]
    constructor
    · exact Or.inr
    · rintro (rfl | hk)
      · exact h
      · exact hk
  · rw [keys_put_of_not_mem h, List.mem_append, List.mem_singleton, or_comm]

theorem get?_foldl_put_of_not_mem
    {xs : List α}
    {t : Table α}
    {k : Name}
    (h : k ∉ xs.map key) :
    (xs.foldl put t).get? k = t.get? k := by
  induction xs generalizing t with
  | nil => rfl
  | cons x xs ih =>
      rw [List.map_cons, List.mem_cons, not_or] at h
      rw [List.foldl_cons, ih h.2, get?_put_of_ne h.1]

theorem get?_foldl_put_of_mem
    {xs : List α}
    {t : Table α}
    {x : α}
    (hx : x ∈ xs)
    (hxs : (xs.map key).Nodup) :
    (xs.foldl put t).get? (key x) = some x := by
  induction xs generalizing t with
  | nil => cases hx
  | cons y ys ih =>
      rw [List.map_cons, List.nodup_cons] at hxs
      rcases List.mem_cons.mp hx with rfl | hx
      · rw [List.foldl_cons, get?_foldl_put_of_not_mem hxs.1, get?_put_self]
      · exact ih hx hxs.2

theorem mem_of_mem_foldl_put
    {xs : List α}
    {t : Table α}
    {y : α}
    (hy : y ∈ (xs.foldl put t).items) :
    y ∈ xs ∨ y ∈ t.items := by
  induction xs generalizing t with
  | nil => exact Or.inr hy
  | cons x xs ih =>
      rcases ih hy with hy | hy
      · exact Or.inl (List.mem_cons_of_mem x hy)
      · rcases mem_put_iff.mp hy with rfl | ⟨hy, -⟩
        · exact Or.inl List.mem_cons_self
        · exact Or.inr hy

theorem mem_keys_foldl_put
    {xs : List α}
    {t : Table α}
    {k : Name} :
    k ∈ (xs.foldl put t).keys ↔ k ∈ xs.map key ∨ k ∈ t.keys := by
  induction xs generalizing t with
  | nil => simp
  | cons x xs ih =>
      rw [List.foldl_cons, ih, mem_keys_put, List.map_cons, List.mem_cons]
      tauto

end Put

section Filter

theorem get?_filter
    {t : Table α}
    {p : α → Bool}
    {k : Name}
    {x : α}
    (h : t.get? k = some x)
    (hp : p x = true) :
    (t.filter p).get? k = some x := by
  obtain ⟨hx, hk⟩ := get?_eq_some_iff.mp h
  exact get?_eq_some_iff.mpr ⟨List.mem_filter.mpr ⟨hx, hp⟩, hk⟩

theorem get?_mapValues
    {t : Table α}
    {f : α → α}
    (hf : ∀ x, key (f x) = key x)
    {k : Name}
    {x : α}
    (h : t.get? k = some x) :
    (t.mapValues f hf).get? k = some (f x) := by
  obtain ⟨hx, hk⟩ := get?_eq_some_iff.mp h
  exact get?_eq_some_iff.mpr ⟨List.mem_map.mpr ⟨x, hx, rfl⟩, (hf x).trans hk⟩

end Filter

end Table

end Supergraph
