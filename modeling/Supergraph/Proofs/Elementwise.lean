import Mathlib.Data.List.Forall2

/-!
# Lists element by element

Two lists that are related one by one (`List.Forall₂`), and lists whose elements are checked
one after the other up to the first that does not pass (`FirstFault`).
-/

namespace Supergraph

section Related

variable {α β γ : Type} {R : α → β → Prop} {xs : List α} {ys : List β}

theorem exists_of_mem_forall₂
    (h : List.Forall₂ R xs ys)
    {y : β}
    (hy : y ∈ ys) :
    ∃ x ∈ xs, R x y := by
  induction h with
  | nil => cases hy
  | @cons x z xs ys hxz _ ih =>
      rcases List.mem_cons.mp hy with rfl | hy
      · exact ⟨x, List.mem_cons_self, hxz⟩
      · obtain ⟨x', hx', hR⟩ := ih hy
        exact ⟨x', List.mem_cons_of_mem x hx', hR⟩

theorem map_eq_of_forall₂
    {f : α → γ}
    {g : β → γ}
    (h : List.Forall₂ (fun x y => g y = f x) xs ys) :
    ys.map g = xs.map f := by
  induction h with
  | nil => rfl
  | cons hxy _ ih => rw [List.map_cons, List.map_cons, hxy, ih]

theorem exists_of_mem_forall₂_left
    (h : List.Forall₂ R xs ys)
    {x : α}
    (hx : x ∈ xs) :
    ∃ y ∈ ys, R x y :=
  exists_of_mem_forall₂ h.flip hx

theorem forall₂_comp
    {S : β → γ → Prop}
    {T : α → γ → Prop}
    (comp : ∀ x y z, R x y → S y z → T x z)
    {zs : List γ}
    (hxy : List.Forall₂ R xs ys)
    (hyz : List.Forall₂ S ys zs) :
    List.Forall₂ T xs zs := by
  induction hxy generalizing zs with
  | nil =>
      cases hyz
      exact .nil
  | cons hx _ ih =>
      cases hyz with
      | cons hy rest => exact .cons (comp _ _ _ hx hy) (ih rest)

end Related

section FirstFaults

variable {α ε : Type}

/-- The first element of a list with a fault has this one. -/
inductive FirstFault (fault : α → ε → Prop) : List α → ε → Prop
  | head
      {x : α}
      {xs : List α}
      {e : ε}
      (here : fault x e) :
      FirstFault fault (x :: xs) e
  | tail
      {x : α}
      {xs : List α}
      {e : ε}
      (passed : ∀ e, ¬ fault x e)
      (later : FirstFault fault xs e) :
      FirstFault fault (x :: xs) e

namespace FirstFault

variable {fault : α → ε → Prop} {x : α} {xs : List α} {e : ε}

theorem not_nil :
    ¬ FirstFault fault [] e :=
  nofun

theorem cons_iff_of_fine
    (fine : ∀ e, ¬ fault x e) :
    FirstFault fault (x :: xs) e ↔ FirstFault fault xs e := by
  constructor
  · rintro (here | ⟨-, later⟩)
    · exact absurd here (fine e)
    · exact later
  · exact .tail fine

/-- Faults that are determined by the element make the first one determined, too. -/
theorem cons_iff_of_fault
    {e₀ : ε}
    (only : ∀ e, fault x e ↔ e = e₀) :
    FirstFault fault (x :: xs) e ↔ e = e₀ := by
  constructor
  · rintro (here | ⟨passed, -⟩)
    · exact (only e).mp here
    · exact absurd ((only e₀).mpr rfl) (passed e₀)
  · rintro rfl
    exact .head ((only e).mpr rfl)

theorem congr
    {fault' : α → ε → Prop}
    (same : ∀ x e, fault x e ↔ fault' x e) :
    FirstFault fault xs e ↔ FirstFault fault' xs e := by
  obtain rfl : fault = fault' := funext fun x => funext fun e => propext (same x e)
  rfl

/-- What stands in front of the first fault has none. -/
theorem exists_split
    (h : FirstFault fault xs e) :
    ∃ before x after, xs = before ++ x :: after ∧
      (∀ y ∈ before, ∀ e, ¬ fault y e) ∧ fault x e := by
  induction h with
  | @head x xs e here => exact ⟨[], x, xs, rfl, nofun, here⟩
  | @tail y ys e passed _ ih =>
      obtain ⟨before, x, after, rfl, fine, here⟩ := ih
      exact ⟨y :: before, x, after, rfl, List.forall_mem_cons.mpr ⟨passed, fine⟩, here⟩

theorem exists_mem
    (h : FirstFault fault xs e) :
    ∃ x ∈ xs, fault x e := by
  obtain ⟨before, x, after, rfl, -, here⟩ := h.exists_split
  exact ⟨x, List.mem_append_right _ List.mem_cons_self, here⟩

/-- Without a first fault there is none at all. -/
theorem forall_not_iff :
    (∀ e, ¬ FirstFault fault xs e) ↔ ∀ x ∈ xs, ∀ e, ¬ fault x e := by
  induction xs with
  | nil => exact iff_of_true (fun _ => not_nil) nofun
  | cons x xs ih =>
      rw [List.forall_mem_cons]
      by_cases fine : ∀ e, ¬ fault x e
      · simp only [cons_iff_of_fine fine, ih]
        exact (and_iff_right fine).symm
      · simp only [not_forall, not_not] at fine
        obtain ⟨e, here⟩ := fine
        exact iff_of_false (fun none => none e (.head here)) (fun all => all.1 e here)

end FirstFault

end FirstFaults

end Supergraph
