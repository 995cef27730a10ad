import Supergraph.Proofs.Schema.Rereading

/-!
# Parts grouped by place

A type that is read again has the parts of its definition first and then those of one
extension after the other, under new numbers.  A list of parts of which this is true is
*regrouped* (`Sourced.Regrouped`): what comes from one place is the same as before, and so
are all parts together, up to their order.

Extensions are written in the order in which they first appear.  Grouping parts by
extensions in that order brings up the extensions in that order again, no matter over how
many lists the parts are spread (`distinct_flatten_of_sorts`).
-/

namespace Supergraph

section FirstAppearances

variable {α β : Type} [DecidableEq α] [DecidableEq β]

theorem distinct_append
    (xs ys : List α) :
    distinct (xs ++ ys) = distinct xs ++ (distinct ys).filter (fun y => y ∉ xs) := by
  induction xs with
  | nil => simp [distinct]
  | cons x xs ih =>
      rw [List.cons_append, distinct, ih, distinct, List.filter_append, List.filter_filter,
        List.cons_append]
      congr 2
      refine List.filter_congr fun y _ => ?_
      simp [not_or]

theorem distinct_map
    {f : α → β}
    {xs : List α}
    (injective : ∀ x ∈ xs, ∀ y ∈ xs, f x = f y → x = y) :
    distinct (xs.map f) = (distinct xs).map f := by
  induction xs with
  | nil => rfl
  | cons x xs ih =>
      have ih := ih fun y hy z hz => injective y (List.mem_cons_of_mem x hy) z
        (List.mem_cons_of_mem x hz)
      rw [List.map_cons, distinct, distinct, ih, List.map_cons, List.filter_map]
      congr 2
      refine List.filter_congr fun y hy => ?_
      have hy := List.mem_cons_of_mem x (mem_distinct.mp hy)
      have same : f y = f x ↔ y = x :=
        ⟨injective y hy x List.mem_cons_self, congrArg f⟩
      simp [same]

theorem distinct_perm
    {xs ys : List α}
    (same : ∀ a, a ∈ ys ↔ a ∈ xs) :
    (distinct ys).Perm (distinct xs) :=
  (List.perm_ext_iff_of_nodup (nodup_distinct ys) (nodup_distinct xs)).mpr fun a => by
    rw [mem_distinct, mem_distinct, same]

/-- The members of a list, in groups: for each element of the first list all that are equal
to it. -/
def grouped (order xs : List α) : List α :=
  order.flatMap fun a => xs.filter (fun x => x = a)

theorem mem_grouped
    {order xs : List α}
    {a : α} :
    a ∈ grouped order xs ↔ a ∈ order ∧ a ∈ xs := by
  simp [grouped]

theorem distinct_filter_eq
    (xs : List α)
    (a : α) :
    distinct (xs.filter (fun x => x = a)) = if a ∈ xs then [a] else [] := by
  induction xs with
  | nil => rfl
  | cons x xs ih =>
      by_cases hx : x = a
      · subst hx
        simp [distinct, ih]
      · have other : a ≠ x := fun e => hx e.symm
        simp [hx, ih, other]

/-- Groups come in the order in which they were asked for. -/
theorem distinct_grouped
    {order : List α}
    (nodup : order.Nodup)
    (xs : List α) :
    distinct (grouped order xs) = order.filter (fun a => a ∈ xs) := by
  induction order with
  | nil => rfl
  | cons a order ih =>
      obtain ⟨fresh, nodup⟩ := List.nodup_cons.mp nodup
      have apart : (order.filter (fun b => b ∈ xs)).filter
          (fun b => b ∉ xs.filter (fun x => x = a)) = order.filter (fun b => b ∈ xs) := by
        refine List.filter_eq_self.mpr fun b hb => ?_
        have other : b ≠ a := fun e => fresh (e ▸ (List.mem_filter.mp hb).1)
        simp [other]
      have head : grouped (a :: order) xs = xs.filter (fun x => x = a) ++ grouped order xs := rfl
      rw [head, distinct_append, distinct_filter_eq, ih nodup, apart]
      by_cases ha : a ∈ xs <;> simp [ha]

/-- The second list has the members of the first, and either they come up in a certain order
or the lists are the same. -/
structure Sorts (order xs ys : List α) : Prop where
  mem : ∀ a, a ∈ ys ↔ a ∈ xs
  sorted : distinct ys = order.filter (fun a => a ∈ xs) ∨ ys = xs

theorem sorts_grouped
    {order xs : List α}
    (nodup : order.Nodup)
    (covered : ∀ a ∈ xs, a ∈ order) :
    Sorts order xs (grouped order xs) where
  mem := fun _ => mem_grouped.trans ⟨And.right, fun ha => ⟨covered _ ha, ha⟩⟩
  sorted := Or.inl (distinct_grouped nodup xs)

theorem mem_flatten_of_sorts
    {order : List α}
    {xss yss : List (List α)}
    (sorts : List.Forall₂ (Sorts order) xss yss)
    (a : α) :
    a ∈ yss.flatten ↔ a ∈ xss.flatten := by
  induction sorts with
  | nil => rfl
  | cons head _ ih =>
      rw [List.flatten_cons, List.flatten_cons, List.mem_append, List.mem_append, head.mem, ih]

omit [DecidableEq α] in
theorem eq_filter_of_append
    {q : α → Bool}
    {xs ys zs : List α}
    (whole : xs ++ ys = zs)
    (front : ∀ a ∈ xs, q a = true)
    (back : ∀ a ∈ ys, q a = false) :
    xs = zs.filter q ∧ ys = zs.filter (fun a => !q a) := by
  rw [← whole, List.filter_append, List.filter_append, List.filter_eq_self.mpr front,
    List.filter_eq_nil_iff.mpr fun a ha => by simp [back a ha],
    List.filter_eq_nil_iff.mpr fun a ha => by simp [front a ha],
    List.filter_eq_self.mpr fun a ha => by simp [back a ha], List.append_nil, List.nil_append]
  exact ⟨rfl, rfl⟩

/-- If the members of all lists together first appear in a certain order, they still do
after each of the lists has been sorted by it. -/
theorem distinct_flatten_of_sorts
    {order : List α}
    {xss yss : List (List α)}
    (sorts : List.Forall₂ (Sorts order) xss yss)
    (inOrder : distinct xss.flatten = order.filter (fun a => a ∈ xss.flatten)) :
    distinct yss.flatten = distinct xss.flatten := by
  -- For the induction, members that have appeared before are left out.
  have rest : ∀ p : α → Bool,
      (distinct xss.flatten).filter p = (order.filter (fun a => a ∈ xss.flatten)).filter p →
      (distinct yss.flatten).filter p = (distinct xss.flatten).filter p := by
    clear inOrder
    induction sorts with
    | nil => exact fun _ _ => rfl
    | @cons xs ys xss yss head _ ih =>
        intro p inOrder
        simp only [List.flatten_cons, distinct_append, List.filter_append, List.mem_append]
          at inOrder ⊢
        obtain ⟨first, behind⟩ := eq_filter_of_append (q := fun a => decide (a ∈ xs)) inOrder
          (fun a ha => by simpa using mem_distinct.mp (List.mem_filter.mp ha).1)
          (fun a ha => by simpa using (List.mem_filter.mp (List.mem_filter.mp ha).1).2)
        simp only [List.filter_filter] at first behind
        have first : (distinct xs).filter p = (order.filter (fun a => a ∈ xs)).filter p := by
          rw [first, List.filter_filter]
          refine List.filter_congr fun a _ => ?_
          by_cases ha : a ∈ xs <;> simp [ha]
        have later : (distinct yss.flatten).filter (fun a => p a && decide (a ∉ xs)) =
            (distinct xss.flatten).filter (fun a => p a && decide (a ∉ xs)) := by
          refine ih _ ?_
          rw [behind, List.filter_filter]
          refine List.filter_congr fun a _ => ?_
          by_cases ha : a ∈ xs <;> simp [ha]
        rw [List.filter_filter, List.filter_filter]
        congr 1
        · rcases head.sorted with sorted | rfl
          · rw [sorted, first]
          · rfl
        · simp only [head.mem]
          exact later
  simpa using rest (fun _ => true) (by rw [inOrder])

end FirstAppearances

namespace Origin

theorem extension_ne_definition
    (index : Nat) :
    Origin.extension index ≠ .definition := by
  simp

/-- Places have got new numbers: that of the definition is the definition. -/
structure Numbers (number : Origin → Origin) (places : List Origin) : Prop where
  definition : number .definition = .definition
  extension : ∀ o ∈ places, number o ≠ .definition
  injective : ∀ o ∈ places, ∀ o' ∈ places, number o = number o' → o = o'
  nodup : places.Nodup

theorem Numbers.ne_definition
    {number : Origin → Origin}
    {places : List Origin}
    (h : Numbers number places)
    {o : Origin}
    (ho : o ∈ places) :
    o ≠ .definition := by
  rintro rfl
  exact h.extension _ ho h.definition

theorem Numbers.number_inj
    {number : Origin → Origin}
    {places : List Origin}
    (h : Numbers number places)
    {o o' : Origin}
    (ho : o ∈ .definition :: places)
    (ho' : o' ∈ .definition :: places) :
    number o = number o' ↔ o = o' := by
  refine ⟨fun same => ?_, congrArg number⟩
  rcases List.mem_cons.mp ho with rfl | ho <;> rcases List.mem_cons.mp ho' with rfl | ho'
  · rfl
  · exact absurd (same.symm.trans h.definition) (h.extension o' ho')
  · exact absurd (same.trans h.definition) (h.extension o ho)
  · exact h.injective o ho o' ho' same

/-- The place under the number that it has in a list. -/
def renumber (places : List Origin) : Origin → Origin
  | .definition => .definition
  | o => .extension (places.idxOf o)

theorem renumber_of_ne
    {places : List Origin}
    {o : Origin}
    (extension : o ≠ .definition) :
    renumber places o = .extension (places.idxOf o) := by
  cases o with
  | definition => exact absurd rfl extension
  | extension => rfl

/-- Places have their numbers from what stands in front of them. -/
theorem renumber_of_append_cons
    {whole front back : List Origin}
    {o : Origin}
    (split : whole = front ++ o :: back)
    (nodup : whole.Nodup)
    (extensions : ∀ o ∈ whole, o ≠ .definition) :
    renumber whole o = .extension front.length := by
  have fresh : o ∉ front := fun mem => by
    rw [split] at nodup
    exact (List.nodup_append.mp nodup).2.2 o mem o List.mem_cons_self rfl
  rw [renumber_of_ne (extensions o (by simp [split])), split, List.idxOf_append_of_notMem fresh,
    List.idxOf_cons_self, Nat.add_zero]

theorem numbers_renumber
    (os : List Origin) :
    Numbers (renumber (extensions os)) (extensions os) where
  definition := rfl
  extension := by
    intro o ho
    rw [renumber_of_ne (mem_extensions_iff.mp ho).2]
    exact extension_ne_definition _
  injective := by
    intro o ho o' ho' same
    rw [renumber_of_ne (mem_extensions_iff.mp ho).2, renumber_of_ne (mem_extensions_iff.mp ho').2,
      extension.injEq] at same
    exact (List.idxOf_inj ho).mp same
  nodup := nodup_extensions os

theorem grouped_filter
    {number : Origin → Origin}
    {places : List Origin}
    (numbers : Numbers number places)
    (os : List Origin) :
    grouped places (os.filter (fun o => o ≠ .definition)) = grouped places os := by
  refine List.flatMap_congr fun o ho => ?_
  rw [List.filter_filter]
  refine List.filter_congr fun o' _ => ?_
  by_cases same : o' = o <;> simp [same, numbers.ne_definition ho]

/-- These are some of the places, in the order in which the places come. -/
def InOrder (places os : List Origin) : Prop :=
  os = places.filter (fun o => o ∈ os)

theorem InOrder.subset
    {places os : List Origin}
    (h : InOrder places os) :
    os ⊆ places := by
  intro o ho
  rw [h] at ho
  exact (List.mem_filter.mp ho).1

theorem inOrder_self
    (os : List Origin) :
    InOrder os os :=
  (List.filter_eq_self.mpr fun o ho => by simpa using ho).symm

section Lists

variable {number : Origin → Origin} {places os : List Origin} {xss yss : List (List Origin)}
  (numbers : Numbers number places)
  (within : extensions xss.flatten ⊆ places)
  (lists : List.Forall₂ (fun xs ys => ys = grouped places xs ∨
    ys = xs.filter (fun o => o ≠ .definition)) xss yss)

include numbers within lists

/-- Lists of extensions, grouped by place or as before, are sorted by place. -/
theorem sorts_extensions :
    List.Forall₂ (Sorts places) (xss.map (List.filter fun o => o ≠ .definition)) yss := by
  have inside : ∀ xs ∈ xss, ∀ o ∈ xs.filter (fun o => o ≠ .definition), o ∈ places := by
    intro xs hxs o ho
    obtain ⟨ho, extension⟩ := List.mem_filter.mp ho
    exact within (mem_extensions_iff.mpr
      ⟨List.mem_flatten.mpr ⟨xs, hxs, ho⟩, by simpa using extension⟩)
  clear within
  induction lists with
  | nil => exact .nil
  | @cons xs ys _ _ head _ ih =>
      refine .cons ?_ (ih fun xs hxs => inside xs (List.mem_cons_of_mem _ hxs))
      rcases head with rfl | rfl
      · rw [← grouped_filter numbers]
        exact sorts_grouped numbers.nodup (inside xs List.mem_cons_self)
      · exact ⟨fun _ => Iff.rfl, Or.inr rfl⟩

theorem mem_flatten_extensions
    (o : Origin) :
    o ∈ yss.flatten ↔ o ∈ xss.flatten.filter fun o => o ≠ .definition := by
  rw [List.filter_flatten]
  exact mem_flatten_of_sorts (sorts_extensions numbers within lists) o

/-- The same extensions come up. -/
theorem distinct_perm_extensions : (distinct yss.flatten).Perm (extensions xss.flatten) :=
  distinct_perm (mem_flatten_extensions numbers within lists)

/-- They come up in the same order if this is the order by which they are grouped. -/
theorem distinct_eq_extensions
    (inOrder : InOrder places (extensions xss.flatten)) :
    distinct yss.flatten = extensions xss.flatten := by
  rw [extensions, List.filter_flatten]
  refine distinct_flatten_of_sorts (sorts_extensions numbers within lists) ?_
  rw [← List.filter_flatten]
  refine Eq.trans inOrder (List.filter_congr fun o _ => ?_)
  rw [decide_eq_decide]
  exact mem_distinct

/-- Under their new numbers, they are written as they come up. -/
theorem extensions_eq_map_distinct
    (origins : os.filter (fun o => o ≠ .definition) = yss.flatten.map number) :
    extensions os = (distinct yss.flatten).map number := by
  have covered : ∀ o ∈ yss.flatten, o ∈ places := fun o ho =>
    within (mem_distinct.mpr ((mem_flatten_extensions numbers within lists o).mp ho))
  rw [extensions, origins]
  exact distinct_map fun o ho o' ho' => numbers.injective o (covered o ho) o' (covered o' ho')

end Lists

end Origin

namespace Sourced

variable {α β : Type} {number : Origin → Origin} {places : List Origin} {o : Origin}
  {xs ys : List (Sourced α)}

/-- The parts of the definition are the same, and those of the extensions come one place
after the other, under new numbers. -/
structure Regrouped
    (number : Origin → Origin)
    (places : List Origin)
    (xs ys : List (Sourced α)) :
    Prop where
  definition : fromOrigin .definition ys = fromOrigin .definition xs
  extensions : ys.filter (fun y => y.origin ≠ .definition) =
    places.flatMap fun o => allFrom (number o) (fromOrigin o xs)

theorem fromOrigin_append
    (o : Origin)
    (xs ys : List (Sourced α)) :
    fromOrigin o (xs ++ ys) = fromOrigin o xs ++ fromOrigin o ys :=
  List.filterMap_append

theorem fromOrigin_allFrom_self
    (o : Origin)
    (as : List α) :
    fromOrigin o (allFrom o as) = as := by
  simp [fromOrigin, allFrom, List.filterMap_map]

theorem fromOrigin_allFrom_of_ne
    {o o' : Origin}
    (other : o' ≠ o)
    (as : List α) :
    fromOrigin o (allFrom o' as) = [] := by
  simp [fromOrigin, allFrom, List.filterMap_map, other]

theorem fromOrigin_filter_of_ne
    (extension : o ≠ .definition)
    (xs : List (Sourced α)) :
    fromOrigin o (xs.filter (fun x => x.origin ≠ .definition)) = fromOrigin o xs := by
  rw [fromOrigin_eq, fromOrigin_eq, List.filter_filter]
  congr 1
  refine List.filter_congr fun x _ => ?_
  by_cases ho : x.origin = o <;> simp [ho, extension]

theorem flatMap_fromOrigin
    {γ : Type}
    (f : γ → List (Sourced α))
    (cs : List γ) :
    fromOrigin o (cs.flatMap f) = cs.flatMap fun c => fromOrigin o (f c) := by
  simp [fromOrigin, List.filterMap_flatMap]

theorem fromOrigin_map
    (f : α → β)
    (xs : List (Sourced α)) :
    fromOrigin o (xs.map fun x => ⟨x.origin, f x.item⟩) = (fromOrigin o xs).map f := by
  rw [fromOrigin_eq, fromOrigin_eq, List.filter_map, List.map_map, List.map_map]
  rfl

theorem fromOrigin_filter
    (p : α → Bool)
    (xs : List (Sourced α)) :
    fromOrigin o (xs.filter fun x => p x.item) = (fromOrigin o xs).filter p := by
  rw [fromOrigin_eq, fromOrigin_eq, List.filter_filter, List.filter_map, List.filter_filter]
  congr 1
  refine List.filter_congr fun x _ => ?_
  rw [Bool.and_comm]
  rfl

/-- What is there is there place by place. -/
theorem perm_flatMap_fromOrigin
    {os : List Origin}
    (nodup : os.Nodup)
    (covered : ∀ x ∈ xs, x.origin ∈ os) :
    (os.flatMap fun o => fromOrigin o xs).Perm (xs.map item) := by
  induction os generalizing xs with
  | nil =>
      have none : xs = [] := List.eq_nil_iff_forall_not_mem.mpr fun x hx => by
        cases covered x hx
      rw [none]
      exact .refl _
  | cons o os ih =>
      obtain ⟨fresh, nodup⟩ := List.nodup_cons.mp nodup
      have rest : (os.flatMap fun o' =>
            fromOrigin o' (xs.filter fun x => !decide (x.origin = o))).Perm
          ((xs.filter fun x => !decide (x.origin = o)).map item) := by
        refine ih nodup fun x hx => ?_
        obtain ⟨hx, other⟩ := List.mem_filter.mp hx
        exact (List.mem_cons.mp (covered x hx)).resolve_left (by simpa using other)
      have others : (os.flatMap fun o' =>
            fromOrigin o' (xs.filter fun x => !decide (x.origin = o))) =
          os.flatMap fun o' => fromOrigin o' xs := by
        refine List.flatMap_congr fun o' ho' => ?_
        have other : o' ≠ o := fun e => fresh (e ▸ ho')
        rw [fromOrigin_eq, fromOrigin_eq, List.filter_filter]
        congr 1
        refine List.filter_congr fun x _ => ?_
        by_cases hx : x.origin = o' <;> simp [hx, other]
      rw [others] at rest
      rw [List.flatMap_cons, fromOrigin_eq]
      refine (rest.append_left _).trans ?_
      rw [← List.map_append]
      exact (List.filter_append_perm _ xs).map item

namespace Regrouped

theorem start
    (definition : ∀ y ∈ ys, y.origin = .definition)
    (same : fromOrigin .definition ys = fromOrigin .definition xs) :
    Regrouped number [] xs ys where
  definition := same
  extensions := List.filter_eq_nil_iff.mpr fun y hy => by simp [definition y hy]

theorem of_definition
    (only : ys = allFrom .definition (fromOrigin .definition xs)) :
    Regrouped number [] xs ys := by
  subst only
  refine start (fun y hy => ?_) (fromOrigin_allFrom_self _ _)
  obtain ⟨a, -, rfl⟩ := List.mem_map.mp hy
  rfl

theorem add
    (h : Regrouped number places xs ys)
    (extension : number o ≠ .definition) :
    Regrouped number (places ++ [o]) xs (ys ++ allFrom (number o) (fromOrigin o xs)) where
  definition := by
    rw [fromOrigin_append, fromOrigin_allFrom_of_ne extension, List.append_nil, h.definition]
  extensions := by
    have all : (allFrom (number o) (fromOrigin o xs)).filter
        (fun y => y.origin ≠ .definition) = allFrom (number o) (fromOrigin o xs) := by
      refine List.filter_eq_self.mpr fun y hy => ?_
      obtain ⟨a, -, rfl⟩ := List.mem_map.mp hy
      simpa using extension
    rw [List.filter_append, h.extensions, all, List.flatMap_append, List.flatMap_singleton]

variable (h : Regrouped number places xs ys)

include h

theorem fromOrigin_number
    (numbers : Origin.Numbers number places)
    (ho : o ∈ places) :
    fromOrigin (number o) ys = fromOrigin o xs := by
  rw [← fromOrigin_filter_of_ne (numbers.extension o ho), h.extensions, flatMap_fromOrigin]
  obtain ⟨front, back, rfl⟩ := List.append_of_mem ho
  have apart := List.nodup_middle.mp numbers.nodup
  have none : ∀ o' ∈ front ++ back,
      fromOrigin (number o) (allFrom (number o') (fromOrigin o' xs)) = [] := by
    intro o' ho'
    refine fromOrigin_allFrom_of_ne (fun same => ?_) _
    have mem : o' ∈ front ++ o :: back := by
      rw [List.mem_append] at ho'
      rw [List.mem_append, List.mem_cons]
      tauto
    exact (List.nodup_cons.mp apart).1 (numbers.injective o' mem o ho same ▸ ho')
  rw [List.forall_mem_append] at none
  rw [List.flatMap_append, List.flatMap_cons, List.flatMap_eq_nil_iff.mpr none.1,
    List.flatMap_eq_nil_iff.mpr none.2, fromOrigin_allFrom_self, List.append_nil, List.nil_append]

theorem origins :
    (ys.map origin).filter (fun o => o ≠ .definition) =
      (grouped places (xs.map origin)).map number := by
  have each : ∀ o, (allFrom (number o) (fromOrigin o xs)).map origin =
      ((xs.map origin).filter fun x => x = o).map number := by
    intro o
    rw [fromOrigin_eq, allFrom, List.map_map, List.map_map, List.filter_map, List.map_map]
    refine List.map_congr_left fun x hx => ?_
    have hx : x.origin = o := by simpa using (List.mem_filter.mp hx).2
    simp [hx]
  rw [List.filter_map]
  show (ys.filter fun y => y.origin ≠ .definition).map origin = _
  rw [h.extensions, List.map_flatMap, grouped, List.map_flatMap]
  exact List.flatMap_congr fun o _ => each o

theorem perm
    (numbers : Origin.Numbers number places)
    (covered : ∀ x ∈ xs, x.origin ≠ .definition → x.origin ∈ places) :
    (ys.map item).Perm (xs.map item) := by
  have nodup : (Origin.definition :: places).Nodup :=
    List.nodup_cons.mpr ⟨fun mem => numbers.ne_definition mem rfl, numbers.nodup⟩
  have inside : ∀ x ∈ xs, x.origin ∈ Origin.definition :: places := by
    intro x hx
    by_cases hd : x.origin = .definition
    · rw [hd]
      exact List.mem_cons_self
    · exact List.mem_cons_of_mem _ (covered x hx hd)
  have whole := perm_flatMap_fromOrigin nodup inside
  have parts : ((Origin.definition :: places).flatMap fun o => fromOrigin o xs) =
      (ys.filter (fun y => decide (y.origin = .definition)) ++
        ys.filter (fun y => !decide (y.origin = .definition))).map item := by
    have behind : ys.filter (fun y => !decide (y.origin = .definition)) =
        places.flatMap fun o => allFrom (number o) (fromOrigin o xs) := by
      rw [← h.extensions]
      exact List.filter_congr fun y _ => by simp
    rw [List.flatMap_cons, ← h.definition, fromOrigin_eq, List.map_append, behind,
      List.map_flatMap]
    simp only [map_item_allFrom]
  exact ((List.filter_append_perm _ ys).map item).symm.trans (parts ▸ whole)

theorem filter
    (p : α → Bool) :
    Regrouped number places (xs.filter fun x => p x.item) (ys.filter fun y => p y.item) where
  definition := by rw [fromOrigin_filter, fromOrigin_filter, h.definition]
  extensions := by
    rw [List.filter_comm, h.extensions, List.filter_flatMap]
    refine List.flatMap_congr fun o _ => ?_
    rw [fromOrigin_filter, allFrom, allFrom, List.filter_map]
    rfl

theorem map
    (f : α → β) :
    Regrouped number places (xs.map fun x => ⟨x.origin, f x.item⟩)
      (ys.map fun y => ⟨y.origin, f y.item⟩) where
  definition := by rw [fromOrigin_map, fromOrigin_map, h.definition]
  extensions := by
    have extensions := congrArg (List.map fun y : Sourced α => (⟨y.origin, f y.item⟩ : Sourced β))
      h.extensions
    rw [List.filter_map]
    refine extensions.trans ?_
    rw [List.map_flatMap]
    refine List.flatMap_congr fun o _ => ?_
    rw [fromOrigin_map, allFrom, allFrom, List.map_map, List.map_map]
    rfl

/-- Parts of the definition may be added at the end. -/
theorem append_definition
    (numbers : Origin.Numbers number places)
    (a : α) :
    Regrouped number places (xs ++ [⟨.definition, a⟩]) (ys ++ [⟨.definition, a⟩]) where
  definition := by rw [fromOrigin_append, fromOrigin_append, h.definition]
  extensions := by
    rw [List.filter_append, h.extensions]
    refine (List.append_nil _).trans (List.flatMap_congr fun o ho => ?_)
    have none : fromOrigin o [(⟨.definition, a⟩ : Sourced α)] = [] :=
      fromOrigin_allFrom_of_ne (numbers.ne_definition ho).symm [a]
    rw [fromOrigin_append, none, List.append_nil]

end Regrouped

end Sourced

end Supergraph
