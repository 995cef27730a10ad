import Supergraph.Token.Reader

/-!
# What readers take

A reader *reads* tokens as a value if it takes just these tokens and gives the value,
whatever stands between them, as long as the token behind them may follow.  Readers that
are put together read what their parts read, one behind the other.
-/

namespace Supergraph
namespace Reader

variable {α β γ : Type}

/-- The reader takes the tokens and gives the value wherever the next token, if there is
one, may follow. -/
def Reads (p : Reader α) (ts : List Token) (x : α) (next : Option Token → Prop) : Prop :=
  ∀ ls rest, ls.map Lexeme.token = ts → next (rest.head?.map Lexeme.token) →
    p (ls ++ rest) = some (x, rest)

/-- Anything may follow. -/
def anything : Option Token → Prop :=
  fun _ => True

/-- What follows is not this token. -/
def other (t : Token) : Option Token → Prop :=
  fun o => o ≠ some t

section Combination

variable {p : Reader α} {f : α → Reader β} {ts us : List Token} {x : α} {y : β}
  {next next' : Option Token → Prop}

theorem Reads.mono
    (h : Reads p ts x next)
    (weaker : ∀ o, next' o → next o) :
    Reads p ts x next' :=
  fun ls rest hls hrest => h ls rest hls (weaker _ hrest)

theorem Reads.pure
    (x : α) :
    Reads (pure x) [] x next := by
  intro ls rest hls _
  rw [List.map_eq_nil_iff.mp hls]
  rfl

/-- What the second reader takes may follow what the first takes. -/
theorem Reads.bind
    (hp : Reads p ts x next)
    (hf : Reads (f x) us y next')
    (link : ∀ o, next' o → next (us.head?.or o)) :
    Reads (p >>= f) (ts ++ us) y next' := by
  intro ls rest hls hrest
  obtain ⟨ls, ms, rfl, rfl, rfl⟩ := List.map_eq_append_iff.mp hls
  have between : next ((ms ++ rest).head?.map Lexeme.token) := by
    have linked := link _ hrest
    cases ms with
    | nil => exact linked
    | cons m ms => exact linked
  show (p (ls ++ ms ++ rest)).bind (fun r => f r.1 r.2) = some (y, rest)
  rw [List.append_assoc, hp ls (ms ++ rest) rfl between]
  exact hf ms rest rfl hrest

/-- A reader behind which nothing more is taken. -/
theorem Reads.check
    (hp : Reads p ts x next)
    (hf : Reads (f x) [] y next')
    (link : ∀ o, next' o → next o) :
    Reads (p >>= f) ts y next' := by
  have both := hp.bind hf link
  rwa [List.append_nil] at both

/-- A reader that takes nothing, and what follows is known. -/
theorem Reads.look
    (hp : Reads p [] x next)
    (hf : Reads (f x) us y next')
    (link : ∀ o, next' o → next (us.head?.or o)) :
    Reads (p >>= f) us y next' :=
  hp.bind hf link

theorem Reads.map
    (hp : Reads p ts x next)
    (f : α → β) :
    Reads (f <$> p) ts (f x) next := by
  intro ls rest hls hrest
  show (p (ls ++ rest)).bind (fun r => some (f r.1, r.2)) = some (f x, rest)
  rw [hp ls rest hls hrest]
  rfl

theorem Reads.return
    (hp : Reads p ts x next)
    (f : α → β) :
    Reads (do let a ← p; return f a) ts (f x) next :=
  hp.map f

end Combination

section Tokens

theorem reads_accept
    (t : Token) :
    Reads (accept t) [t] true anything := by
  intro ls rest hls _
  obtain ⟨l, rfl, rfl⟩ := List.map_eq_singleton_iff.mp hls
  show (if l.token = l.token then some (true, rest) else some (false, l :: rest)) = some (true, rest)
  rw [if_pos rfl]

theorem reads_accept_other
    (t : Token) :
    Reads (accept t) [] false (other t) := by
  intro ls rest hls hrest
  rw [List.map_eq_nil_iff.mp hls]
  cases rest with
  | nil => rfl
  | cons l rest =>
      show (if l.token = t then some (true, rest) else some (false, l :: rest)) = some (false, l :: rest)
      rw [if_neg fun h => hrest (congrArg some h)]

theorem reads_atPunct
    (p : Punctuator)
    (b : Bool) :
    Reads (atPunct p) [] b (fun o => (o == some (.punct p)) = b) := by
  intro ls rest hls hrest
  rw [List.map_eq_nil_iff.mp hls]
  show some ((rest.head?.map Lexeme.token) == some (.punct p), rest) = some (b, rest)
  rw [hrest]

theorem reads_expect
    (t : Token) :
    Reads (expect t) [t] () anything :=
  (reads_accept t).bind (Reads.pure ()) fun _ _ => trivial

theorem reads_name
    (n : Name) :
    Reads name [.name n] n anything := by
  intro ls rest hls _
  obtain ⟨⟨t, comma⟩, rfl, rfl⟩ := List.map_eq_singleton_iff.mp hls
  rfl

theorem reads_name?
    (n : Name) :
    Reads name? [.name n] (some n) anything := by
  intro ls rest hls _
  obtain ⟨⟨t, comma⟩, rfl, rfl⟩ := List.map_eq_singleton_iff.mp hls
  rfl

/-- What follows is no string. -/
def unquoted : Option Token → Prop :=
  fun o => ∀ s, o ≠ some (.string s)

theorem reads_string?
    (d : Option String) :
    Reads string? (d.toList.map .string) d unquoted := by
  intro ls rest hls hrest
  cases d with
  | none =>
      rw [List.map_eq_nil_iff.mp hls]
      cases rest with
      | nil => rfl
      | cons l rest =>
          obtain ⟨t, comma⟩ := l
          cases t with
          | string s => exact absurd rfl (hrest s)
          | punct p => rfl
          | name n => rfl
          | int l => rfl
          | float l => rfl
  | some s =>
      obtain ⟨⟨t, comma⟩, rfl, rfl⟩ := List.map_eq_singleton_iff.mp hls
      rfl

end Tokens

section Repetition

variable {p : Reader α} {tok : β → List Token} {val : β → α} {xs : List β}
  {next next' : Option Token → Prop} {sep opening close start : Punctuator}

theorem length_le_flatMap
    (h : ∀ x ∈ xs, tok x ≠ []) :
    xs.length ≤ (xs.flatMap tok).length := by
  induction xs with
  | nil => exact Nat.le_refl 0
  | cons x xs ih =>
      have first := List.length_pos_iff.mpr (h x List.mem_cons_self)
      have rest := ih fun y hy => h y (List.mem_cons_of_mem x hy)
      rw [List.length_cons, List.flatMap_cons, List.length_append]
      omega

/-- What may follow an item in a group: another item or the end. -/
theorem may_follow_item
    (first : ∀ x ∈ xs, ∃ t ts, tok x = t :: ts ∧ t ≠ .punct close ∧ next (some t))
    (last : next (some (.punct close)))
    (o : Option Token) :
    next ((xs.flatMap tok ++ [Token.punct close]).head?.or o) := by
  cases xs with
  | nil => exact last
  | cons x xs =>
      obtain ⟨t, ts, htok, -, ht⟩ := first x List.mem_cons_self
      simpa [htok] using ht

/-- Each item begins with a token that is not the closing punctuator and that may follow the
item in front. -/
theorem reads_untilWithin
    (items : ∀ x ∈ xs, Reads p (tok x) (val x) next)
    (first : ∀ x ∈ xs, ∃ t ts, tok x = t :: ts ∧ t ≠ .punct close ∧ next (some t))
    (last : next (some (.punct close)))
    {fuel : Nat}
    (enough : xs.length < fuel) :
    Reads (untilWithin close p fuel) (xs.flatMap tok ++ [.punct close]) (xs.map val) anything := by
  induction xs generalizing fuel with
  | nil =>
      obtain ⟨fuel, rfl⟩ : ∃ k, fuel = k + 1 := ⟨fuel - 1, by simp at enough; omega⟩
      exact (reads_accept (.punct close)).bind (Reads.pure []) fun _ _ => trivial
  | cons x xs ih =>
      obtain ⟨fuel, rfl⟩ : ∃ k, fuel = k + 1 := ⟨fuel - 1, by simp at enough; omega⟩
      have rest := ih (fun y hy => items y (List.mem_cons_of_mem x hy))
        (fun y hy => first y (List.mem_cons_of_mem x hy)) (by simpa using enough)
      obtain ⟨t, ts, htok, notClose, -⟩ := first x List.mem_cons_self
      have following := may_follow_item (fun y hy => first y (List.mem_cons_of_mem x hy)) last
      rw [List.flatMap_cons, List.append_assoc]
      refine (reads_accept_other (.punct close)).look ?_ ?_
      · exact (items x List.mem_cons_self).bind (rest.return (val x :: ·)) fun o _ => following o
      · intro o _
        simpa [htok, other] using notClose

theorem reads_manyUntil
    (items : ∀ x ∈ xs, Reads p (tok x) (val x) next)
    (first : ∀ x ∈ xs, ∃ t ts, tok x = t :: ts ∧ t ≠ .punct close ∧ next (some t))
    (last : next (some (.punct close))) :
    Reads (manyUntil close p) (xs.flatMap tok ++ [.punct close]) (xs.map val) anything := by
  intro ls rest hls hrest
  refine reads_untilWithin items first last ?_ ls rest hls hrest
  have length : ls.length = (xs.flatMap tok).length + 1 := by
    simpa using congrArg List.length hls
  have nonempty : ∀ x ∈ xs, tok x ≠ [] := by
    intro x hx
    obtain ⟨t, ts, htok, -⟩ := first x hx
    simp [htok]
  have enough := length_le_flatMap nonempty
  rw [List.length_append]
  omega

/-- The tokens of a group between punctuators, which is left out if it is empty. -/
def grouped (opening close : Punctuator) : List (List Token) → List Token
  | [] => []
  | ts :: tss => .punct opening :: (ts ++ tss.flatten ++ [.punct close])

theorem reads_optionalGroup
    (items : ∀ x ∈ xs, Reads p (tok x) (val x) next)
    (first : ∀ x ∈ xs, ∃ t ts, tok x = t :: ts ∧ t ≠ .punct close ∧ next (some t))
    (last : next (some (.punct close))) :
    Reads (optionalGroup opening close p) (grouped opening close (xs.map tok)) (xs.map val)
      (other (.punct opening)) := by
  cases xs with
  | nil =>
      refine (reads_accept_other (.punct opening)).look ?_ fun o ho => ho
      exact Reads.pure []
  | cons x xs =>
      have rest := reads_manyUntil (fun y hy => items y (List.mem_cons_of_mem x hy))
        (fun y hy => first y (List.mem_cons_of_mem x hy)) last
      have following := may_follow_item (fun y hy => first y (List.mem_cons_of_mem x hy)) last
      have members : Reads (someUntil close p) (tok x ++ (xs.flatMap tok ++ [.punct close]))
          (val x :: xs.map val) (other (.punct opening)) :=
        (items x List.mem_cons_self).bind ((rest.return (val x :: ·)).mono fun _ _ => trivial)
          fun o _ => following o
      have group : grouped opening close ((x :: xs).map tok) =
          [.punct opening] ++ (tok x ++ (xs.flatMap tok ++ [.punct close])) := by
        simp [grouped, List.flatMap]
      rw [group]
      exact (reads_accept (.punct opening)).bind members fun _ _ => trivial

/-- What may follow an item that is followed by items with the same beginning. -/
theorem may_follow_start
    (first : ∀ x ∈ xs, ∃ ts, tok x = .punct start :: ts)
    (starts : next (some (.punct start)))
    {o : Option Token}
    (ho : next o) :
    next ((xs.flatMap tok).head?.or o) := by
  cases xs with
  | nil => exact ho
  | cons x xs =>
      obtain ⟨ts, htok⟩ := first x List.mem_cons_self
      simpa [htok] using starts

/-- Items that begin with the same punctuator are read up to one that does not. -/
theorem reads_whileWithin
    (items : ∀ x ∈ xs, Reads p (tok x) (val x) next)
    (first : ∀ x ∈ xs, ∃ ts, tok x = .punct start :: ts)
    (starts : next (some (.punct start)))
    {fuel : Nat}
    (enough : xs.length < fuel) :
    Reads (whileWithin start p fuel) (xs.flatMap tok) (xs.map val)
      (fun o => next o ∧ o ≠ some (.punct start)) := by
  induction xs generalizing fuel with
  | nil =>
      obtain ⟨fuel, rfl⟩ : ∃ k, fuel = k + 1 := ⟨fuel - 1, by simp at enough; omega⟩
      refine (reads_atPunct start false).look (Reads.pure []) fun o ho => ?_
      exact beq_false_of_ne ho.2
  | cons x xs ih =>
      obtain ⟨fuel, rfl⟩ : ∃ k, fuel = k + 1 := ⟨fuel - 1, by simp at enough; omega⟩
      have rest := ih (fun y hy => items y (List.mem_cons_of_mem x hy))
        (fun y hy => first y (List.mem_cons_of_mem x hy)) (by simpa using enough)
      have following : ∀ o, next o ∧ o ≠ some (.punct start) → next ((xs.flatMap tok).head?.or o) :=
        fun o ho => may_follow_start (fun y hy => first y (List.mem_cons_of_mem x hy)) starts ho.1
      obtain ⟨ts, htok⟩ := first x List.mem_cons_self
      rw [List.flatMap_cons]
      refine (reads_atPunct start true).look
        ((items x List.mem_cons_self).bind (rest.return (val x :: ·)) following) fun o _ => ?_
      simp [htok]

theorem reads_manyWhile
    (items : ∀ x ∈ xs, Reads p (tok x) (val x) next)
    (first : ∀ x ∈ xs, ∃ ts, tok x = .punct start :: ts)
    (starts : next (some (.punct start))) :
    Reads (manyWhile start p) (xs.flatMap tok) (xs.map val)
      (fun o => next o ∧ o ≠ some (.punct start)) := by
  intro ls rest hls hrest
  refine reads_whileWithin items first starts ?_ ls rest hls hrest
  have nonempty : ∀ x ∈ xs, tok x ≠ [] := by
    intro x hx
    obtain ⟨ts, htok⟩ := first x hx
    simp [htok]
  have enough := length_le_flatMap nonempty
  rw [← hls, List.length_map] at enough
  rw [List.length_append]
  omega

/-- Items behind separators are read up to the last separator. -/
theorem reads_behindWithin
    (items : ∀ x ∈ xs, Reads p (tok x) (val x) next)
    (separates : next (some (.punct sep)))
    {fuel : Nat}
    (enough : xs.length < fuel) :
    Reads (behindWithin sep p fuel) (xs.flatMap (fun x => .punct sep :: tok x)) (xs.map val)
      (fun o => next o ∧ o ≠ some (.punct sep)) := by
  induction xs generalizing fuel with
  | nil =>
      obtain ⟨fuel, rfl⟩ : ∃ k, fuel = k + 1 := ⟨fuel - 1, by simp at enough; omega⟩
      exact (reads_accept_other (.punct sep)).look (Reads.pure []) fun o ho => ho.2
  | cons x xs ih =>
      obtain ⟨fuel, rfl⟩ : ∃ k, fuel = k + 1 := ⟨fuel - 1, by simp at enough; omega⟩
      have rest := ih (fun y hy => items y (List.mem_cons_of_mem x hy)) (by simpa using enough)
      have following : ∀ o, next o ∧ o ≠ some (.punct sep) →
          next ((xs.flatMap (fun x => .punct sep :: tok x)).head?.or o) := fun o ho =>
        may_follow_start (fun y _ => ⟨tok y, rfl⟩) separates ho.1
      rw [List.flatMap_cons]
      exact (reads_accept (.punct sep)).bind
        ((items x List.mem_cons_self).bind (rest.return (val x :: ·)) following) fun _ _ => trivial

/-- Items with separators between any two. -/
theorem reads_someBetween
    {x : β}
    (items : ∀ y ∈ x :: xs, Reads p (tok y) (val y) next)
    (separates : next (some (.punct sep)))
    {t : Token}
    {ts : List Token}
    (first : tok x = t :: ts)
    (notSep : t ≠ .punct sep) :
    Reads (someBetween sep p) (tok x ++ xs.flatMap (fun y => .punct sep :: tok y)) ((x :: xs).map val)
      (fun o => next o ∧ o ≠ some (.punct sep)) := by
  have rest : Reads (fun ls => behindWithin sep p (ls.length + 1) ls)
      (xs.flatMap (fun y => .punct sep :: tok y)) (xs.map val)
      (fun o => next o ∧ o ≠ some (.punct sep)) := by
    intro ls rest hls hrest
    refine reads_behindWithin (fun y hy => items y (List.mem_cons_of_mem x hy)) separates ?_
      ls rest hls hrest
    have enough : xs.length ≤ (xs.flatMap (fun y => Token.punct sep :: tok y)).length :=
      length_le_flatMap fun y _ => List.cons_ne_nil _ _
    rw [← hls, List.length_map] at enough
    rw [List.length_append]
    omega
  have following : ∀ o, next o ∧ o ≠ some (.punct sep) →
      next ((xs.flatMap (fun y => .punct sep :: tok y)).head?.or o) := fun o ho =>
    may_follow_start (fun y _ => ⟨tok y, rfl⟩) separates ho.1
  refine (reads_accept_other (.punct sep)).look
    ((items x List.mem_cons_self).bind (rest.return (val x :: ·)) following) fun o _ => ?_
  simpa [first, other] using notSep

end Repetition

end Reader
end Supergraph
