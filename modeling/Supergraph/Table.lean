import Supergraph.Name

/-!
# Tables in order of insertion

A `Table` holds values that carry their own name, each name at most once, in
the order in which they were first put in.  Putting a value under a name that is
taken replaces the old value where it stands; a new name goes to the end.

The lemmas say what each operation does to the names: `keys_put_of_mem`,
`keys_put_of_not_mem`, `keys_filter`, `keys_mapValues`.
-/

namespace Supergraph

/-- The values of `α` carry a name. -/
class Keyed (α : Type) where
  key : α → Name

export Keyed (key)

instance : Keyed Name where
  key n := n

section Lists

variable {α : Type} [Keyed α]

/-- The first value of this name. -/
def lookup (k : Name) (xs : List α) : Option α :=
  xs.find? (fun x => key x == k)

/-- Replaces the first value of the same name, or appends. -/
def putInto (x : α) : List α → List α
  | [] => [x]
  | y :: ys => if key y = key x then x :: ys else y :: putInto x ys

theorem keys_putInto
    (x : α)
    (xs : List α) :
    (putInto x xs).map key =
      if key x ∈ xs.map key then xs.map key else xs.map key ++ [key x] := by
  induction xs with
  | nil => simp [putInto]
  | cons y ys ih =>
      by_cases h : key y = key x
      · simp [putInto, h]
      · have h' : ¬ key x = key y := fun e => h e.symm
        simp only [putInto, h, if_false, List.map_cons, ih, List.mem_cons, h', false_or]
        split <;> simp

theorem nodup_keys_putInto
    (x : α)
    {xs : List α}
    (h : (xs.map key).Nodup) :
    ((putInto x xs).map key).Nodup := by
  rw [keys_putInto]
  split
  · exact h
  · rename_i hx
    rw [List.nodup_append]
    refine ⟨h, by simp, ?_⟩
    intro a ha b hb
    simp only [List.mem_singleton] at hb
    subst hb
    intro e
    exact hx (e ▸ ha)

end Lists

/-- Values with distinct names, in order of insertion. -/
@[ext]
structure Table (α : Type) [Keyed α] where
  items : List α
  nodup : (items.map key).Nodup
  deriving DecidableEq

namespace Table

variable {α : Type} [Keyed α]

/-- No values. -/
def empty : Table α where
  items := []
  nodup := by simp

instance : Inhabited (Table α) where
  default := empty

/-- The names in order. -/
def keys (t : Table α) : List Name :=
  t.items.map key

/-- The value of this name. -/
def get? (t : Table α) (k : Name) : Option α :=
  lookup k t.items

/-- Some value has this name. -/
def contains (t : Table α) (k : Name) : Bool :=
  t.items.any (fun x => key x == k)

/-- Those of the names that the table has. -/
def present (t : Table α) (ns : List Name) : List Name :=
  ns.filter t.contains

/-- Replaces the value of the same name in place, or appends. -/
def put (t : Table α) (x : α) : Table α where
  items := putInto x t.items
  nodup := nodup_keys_putInto x t.nodup

/-- Keeps the values that satisfy `p`, in order. -/
def filter (p : α → Bool) (t : Table α) : Table α where
  items := t.items.filter p
  nodup := t.nodup.sublist (List.Sublist.map key List.filter_sublist)

/-- The table without the value of this name. -/
def erase (t : Table α) (k : Name) : Table α :=
  t.filter (fun x => key x != k)

/-- Changes every value and no name. -/
def mapValues
    (f : α → α)
    (hf : ∀ x, key (f x) = key x)
    (t : Table α) :
    Table α where
  items := t.items.map f
  nodup := by
    rw [List.map_map, show key ∘ f = key from funext hf]
    exact t.nodup

/-- A table of these values, unless two of them have the same name. -/
def ofList? (xs : List α) : Option (Table α) :=
  if h : (xs.map key).Nodup then some ⟨xs, h⟩ else none

theorem contains_iff
    (t : Table α)
    (k : Name) :
    t.contains k = true ↔ k ∈ t.keys := by
  simp [contains, keys]

theorem mem_keys_of_mem_present
    {t : Table α}
    {ns : List Name}
    {n : Name}
    (h : n ∈ t.present ns) :
    n ∈ t.keys :=
  (t.contains_iff n).mp (List.mem_filter.mp h).2

theorem keys_put_of_mem
    {t : Table α}
    {x : α}
    (h : key x ∈ t.keys) :
    (t.put x).keys = t.keys := by
  simp only [keys, put, keys_putInto] at *
  simp [h]

theorem keys_put_of_not_mem
    {t : Table α}
    {x : α}
    (h : key x ∉ t.keys) :
    (t.put x).keys = t.keys ++ [key x] := by
  simp only [keys, put, keys_putInto] at *
  simp [h]

theorem keys_filter
    (p : α → Bool)
    (t : Table α) :
    (t.filter p).keys.Sublist t.keys :=
  List.Sublist.map key List.filter_sublist

theorem keys_mapValues
    (f : α → α)
    (hf : ∀ x, key (f x) = key x)
    (t : Table α) :
    (t.mapValues f hf).keys = t.keys := by
  simp only [keys, mapValues, List.map_map]
  rw [show key ∘ f = key from funext hf]

end Table

end Supergraph
