import Supergraph.Selection
import Supergraph.Proofs.Document.Rereading

/-!
# Selections are read back

The text of a selection is parsed as the selection just if the selection is readable
(`Selection.parse?_text_iff`).  In a selection set the texts stand side by side with a space
between any two, and the set is read back just if each selection is on its own
(`Selection.parseSet?_setText_iff`): whatever kinds two neighbours have, the second never
continues the first.

At two places of a selection a comma counts, in front of the colon of a label and behind
the dots.  So a selection is read from its layout, and not from its tokens alone.
-/

namespace Supergraph

open Reader

section Pieces

@[simp] theorem Layout.lexemes_space
    (comma : Bool)
    (l : Layout) :
    Layout.lexemes comma (.space :: l) = l.lexemes comma :=
  congrArg (fun b => Layout.lexemes b l) (Bool.or_false comma)

theorem Layout.length_lexemes
    (comma : Bool)
    (l : Layout) :
    (l.lexemes comma).length = l.tokens.length := by
  rw [← l.map_token_lexemes comma, List.length_map]

/-- The first token of a layout, or what stands behind it if it has none. -/
theorem Layout.head?_lexemes_append
    (comma : Bool)
    (l : Layout)
    (rest : List Lexeme) :
    (l.lexemes comma ++ rest).head?.map Lexeme.token =
      l.tokens.head?.or (rest.head?.map Lexeme.token) := by
  rw [← l.map_token_lexemes comma]
  cases l.lexemes comma <;> rfl

theorem Layout.separated_cons
    (sep l : Layout)
    (ls : List Layout) :
    separated sep (l :: ls) = l ++ ls.flatMap (sep ++ ·) := by
  induction ls generalizing l with
  | nil => simp [separated]
  | cons m ls ih =>
      show l ++ sep ++ separated sep (m :: ls) = _
      rw [ih, List.flatMap_cons, List.append_assoc, List.append_assoc]

end Pieces

namespace Reader

variable {α β : Type}

/-- The reader takes the layout, with a comma in front of it or without one, and gives the
value wherever the next token, if there is one, may follow. -/
def ReadsLayout
    (comma : Bool)
    (p : Reader α)
    (l : Layout)
    (x : α)
    (next : Option Token → Prop) : Prop :=
  ∀ rest, next (rest.head?.map Lexeme.token) → p (l.lexemes comma ++ rest) = some (x, rest)

section Combination

variable {p : Reader α} {f : α → Reader β} {l m : Layout} {x : α} {y : β} {comma : Bool}
  {next next' : Option Token → Prop}

/-- Where no comma counts the tokens are enough. -/
theorem Reads.onLayout
    (h : Reads p l.tokens x next)
    (comma : Bool) :
    ReadsLayout comma p l x next :=
  fun rest hrest => h _ rest (l.map_token_lexemes comma) hrest

theorem ReadsLayout.mono
    (h : ReadsLayout comma p l x next)
    (weaker : ∀ o, next' o → next o) :
    ReadsLayout comma p l x next' :=
  fun rest hrest => h rest (weaker _ hrest)

theorem ReadsLayout.space
    (h : ReadsLayout comma p l x next) :
    ReadsLayout comma p (.space :: l) x next := by
  intro rest hrest
  rw [Layout.lexemes_space]
  exact h rest hrest

/-- Whether a comma stands between the two layouts is for the second reader to bear. -/
theorem ReadsLayout.bind
    (hp : ReadsLayout comma p l x next)
    (hf : ∀ comma, ReadsLayout comma (f x) m y next')
    (link : ∀ o, next' o → next (m.tokens.head?.or o)) :
    ReadsLayout comma (p >>= f) (l ++ m) y next' := by
  intro rest hrest
  obtain ⟨comma', both⟩ := Layout.exists_lexemes_append comma l m
  have between : next ((m.lexemes comma' ++ rest).head?.map Lexeme.token) := by
    rw [Layout.head?_lexemes_append]
    exact link _ hrest
  rw [both, List.append_assoc]
  exact (bind_of_eq (hp _ between) f).trans (hf comma' rest hrest)

/-- Right behind a token stands no comma. -/
theorem ReadsLayout.token
    {t : Token}
    (hp : Reads p [t] x anything)
    (hf : ReadsLayout false (f x) m y next) :
    ReadsLayout comma (p >>= f) (.token t :: m) y next :=
  fun rest hrest =>
    (bind_of_eq (hp [⟨t, comma⟩] (m.lexemes false ++ rest) rfl trivial) f).trans (hf rest hrest)

/-- A reader that takes nothing, and what follows is known. -/
theorem ReadsLayout.look
    (hp : Reads p [] x next)
    (hf : ReadsLayout comma (f x) m y next')
    (link : ∀ o, next' o → next (m.tokens.head?.or o)) :
    ReadsLayout comma (p >>= f) m y next' := by
  intro rest hrest
  have between : next ((m.lexemes comma ++ rest).head?.map Lexeme.token) := by
    rw [Layout.head?_lexemes_append]
    exact link _ hrest
  exact (bind_of_eq (hp [] _ rfl between) f).trans (hf rest hrest)

theorem ReadsLayout.return
    (hp : ReadsLayout comma p l x next)
    (f : α → β) :
    ReadsLayout comma (do let a ← p; return f a) l (f x) next :=
  fun rest hrest => bind_of_eq (hp rest hrest) fun a => pure (f a)

/-- The reader refuses a comma, and the first token has none in front. -/
theorem ReadsLayout.unseparated
    {f : Unit → Reader β}
    (first : ∃ t ls, m.lexemes false = ⟨t, false⟩ :: ls)
    (hf : ReadsLayout false (f ()) m y next) :
    ReadsLayout false (noComma >>= f) m y next := by
  intro rest hrest
  obtain ⟨t, ls, lexemes⟩ := first
  have passed : noComma (m.lexemes false ++ rest) = some ((), m.lexemes false ++ rest) := by
    rw [lexemes]
    rfl
  exact (bind_of_eq passed f).trans (hf rest hrest)

end Combination

section Tokens

/-- What follows is no name. -/
def unnamed : Option Token → Prop :=
  fun o => ∀ n, o ≠ some (.name n)

theorem reads_name?_unnamed :
    Reads name? [] none unnamed := by
  intro ls rest hls hrest
  rw [List.map_eq_nil_iff.mp hls]
  cases rest with
  | nil => rfl
  | cons l rest =>
      obtain ⟨t, comma⟩ := l
      cases t with
      | name n => exact absurd rfl (hrest n)
      | punct p => rfl
      | int l => rfl
      | float l => rfl
      | string s => rfl

end Tokens

section Repetition

variable {p : Reader α} {lay : α → Layout} {xs : List α} {next : Option Token → Prop}
  {close : Punctuator}

/-- Each item behind a space, and the closing punctuator behind another one. -/
def itemsLayout (lay : α → Layout) (close : Punctuator) (xs : List α) : Layout :=
  xs.flatMap (fun x => .space :: lay x) ++ .space :: Layout.punct close

theorem itemsLayout_cons
    (x : α)
    (xs : List α) :
    itemsLayout lay close (x :: xs) = .space :: (lay x ++ itemsLayout lay close xs) := by
  simp [itemsLayout]

theorem tokens_itemsLayout
    (xs : List α) :
    (itemsLayout lay close xs).tokens =
      xs.flatMap (fun x => (lay x).tokens) ++ [.punct close] := by
  induction xs with
  | nil => rfl
  | cons x xs ih => simp [itemsLayout_cons, ih]

theorem readsLayout_untilWithin
    (items : ∀ x ∈ xs, ∀ comma, ReadsLayout comma p (lay x) x next)
    (first : ∀ x ∈ xs, ∃ t ts, (lay x).tokens = t :: ts ∧ t ≠ .punct close ∧ next (some t))
    (last : next (some (.punct close)))
    {fuel : Nat}
    (enough : xs.length < fuel)
    (comma : Bool) :
    ReadsLayout comma (untilWithin close p fuel) (itemsLayout lay close xs) xs anything := by
  -- As for tokens, but which comma stands in front of the next item is not known.
  induction xs generalizing fuel comma with
  | nil =>
      obtain ⟨fuel, rfl⟩ : ∃ k, fuel = k + 1 := ⟨fuel - 1, by simp at enough; omega⟩
      have closed : Reads (untilWithin close p (fuel + 1)) [.punct close] [] anything :=
        (reads_accept (.punct close)).bind (Reads.pure []) fun _ _ => trivial
      exact (closed.onLayout (l := Layout.punct close) comma).space
  | cons x xs ih =>
      obtain ⟨fuel, rfl⟩ : ∃ k, fuel = k + 1 := ⟨fuel - 1, by simp at enough; omega⟩
      have rest := ih (fun y hy => items y (List.mem_cons_of_mem x hy))
        (fun y hy => first y (List.mem_cons_of_mem x hy)) (by simpa using enough)
      obtain ⟨t, ts, tokens, notClose, -⟩ := first x List.mem_cons_self
      rw [itemsLayout_cons]
      refine (ReadsLayout.look (reads_accept_other (.punct close)) ?_ ?_).space
      · refine (items x List.mem_cons_self comma).bind
          (fun comma => (rest comma).return (x :: ·)) fun o _ => ?_
        rw [tokens_itemsLayout]
        exact may_follow_item (fun y hy => first y (List.mem_cons_of_mem x hy)) last o
      · intro o _
        simpa [tokens, other] using notClose

theorem readsLayout_manyUntil
    (items : ∀ x ∈ xs, ∀ comma, ReadsLayout comma p (lay x) x next)
    (first : ∀ x ∈ xs, ∃ t ts, (lay x).tokens = t :: ts ∧ t ≠ .punct close ∧ next (some t))
    (last : next (some (.punct close)))
    (comma : Bool) :
    ReadsLayout comma (manyUntil close p) (itemsLayout lay close xs) xs anything := by
  intro rest hrest
  refine readsLayout_untilWithin items first last ?_ comma rest hrest
  have nonempty : ∀ x ∈ xs, (lay x).tokens ≠ [] := by
    intro x hx
    obtain ⟨t, ts, tokens, -⟩ := first x hx
    simp [tokens]
  have enough := length_le_flatMap nonempty
  rw [List.length_append, Layout.length_lexemes, tokens_itemsLayout, List.length_append]
  omega

theorem readsLayout_someUntil
    {x : α}
    (items : ∀ y ∈ x :: xs, ∀ comma, ReadsLayout comma p (lay y) y next)
    (first : ∀ y ∈ x :: xs, ∃ t ts, (lay y).tokens = t :: ts ∧ t ≠ .punct close ∧ next (some t))
    (last : next (some (.punct close)))
    (comma : Bool) :
    ReadsLayout comma (someUntil close p) (lay x ++ itemsLayout lay close xs) (x :: xs)
      anything := by
  have rest := readsLayout_manyUntil (fun y hy => items y (List.mem_cons_of_mem x hy))
    (fun y hy => first y (List.mem_cons_of_mem x hy)) last
  refine (items x List.mem_cons_self comma).bind
    (fun comma => (rest comma).return (x :: ·)) fun o _ => ?_
  rw [tokens_itemsLayout]
  exact may_follow_item (fun y hy => first y (List.mem_cons_of_mem x hy)) last o

end Repetition

end Reader

namespace Selection

section Reading

/-- Reads a selection, given a reader for the selection sets inside of it. -/
def readWith (depth : Nat) (inner : Reader (List Selection)) : Reader Selection := do
  if ← acceptPunct .spread then readFragment depth inner
  else readField depth inner

theorem readSetWithin_succ
    (depth : Nat) :
    readSetWithin (depth + 1) = (do
      punct .leftBrace
      someUntil .rightBrace (readWith depth (readSetWithin depth))) :=
  rfl

/-- Reads a selection as it stands in the set of an operation or fragment. -/
def read : Reader Selection :=
  readWith (maxNesting - 1) (readSetWithin (maxNesting - 1))

/-- The selection with this text. -/
def parse? (t : String) : Option Selection :=
  (Lexeme.scan t).bind read.all?

/-- The selection set with this text. -/
def parseSet? (t : String) : Option (List Selection) :=
  (Lexeme.scan t).bind readSet.all?

/-- Reads what stands behind the name of a field. -/
def readBehindName
    (depth : Nat)
    (inner : Reader (List Selection))
    (label : Option Name)
    (name : Name) : Reader Selection := do
  let arguments ← Argument.readList false depth
  let directives ← Directive.readListWithin false depth
  let selections ← do
    if ← atPunct .leftBrace then inner else pure []
  return .field label name arguments directives selections

/-- Reads what stands behind the condition of an inline fragment. -/
def readBehindCondition
    (depth : Nat)
    (inner : Reader (List Selection))
    (condition : Option Name) : Reader Selection := do
  let directives ← Directive.readListWithin false depth
  let selections ← inner
  return .inline condition directives selections

end Reading

section Readable

/-- The selection can be read if the selection sets inside of it can: no fragment is called
`on`, and an inline fragment selects something. -/
def ReadableWith (depth : Nat) (inner : List Selection → Prop) : Selection → Prop
  | .field _ _ arguments directives selections =>
      (∀ a ∈ arguments, a.value.ReadableWithin false depth) ∧
        (∀ d ∈ directives, d.ReadableWithin false depth) ∧
        (selections ≠ [] → inner selections)
  | .spread fragment directives =>
      fragment ≠ Keyword.on.name ∧ ∀ d ∈ directives, d.ReadableWithin false depth
  | .inline _ directives selections =>
      (∀ d ∈ directives, d.ReadableWithin false depth) ∧ inner selections

/-- The selection set can be read with a limit to its nesting. -/
def SetReadableWithin : Nat → List Selection → Prop
  | 0, _ => False
  | depth + 1, ss => ss ≠ [] ∧ ∀ s ∈ ss, s.ReadableWith depth (SetReadableWithin depth)

/-- The selection can stand in the set of an operation or fragment. -/
def Readable (s : Selection) : Prop :=
  s.ReadableWith (maxNesting - 1) (SetReadableWithin (maxNesting - 1))

variable {depth : Nat} {inner : Reader (List Selection)} {P : List Selection → Prop}

theorem ne_nil_of_setReadableWithin
    {ss : List Selection}
    (h : SetReadableWithin depth ss) :
    ss ≠ [] := by
  cases depth with
  | zero => exact absurd h not_false
  | succ depth => exact h.1

theorem gives_readBehindName
    (h : Gives inner P)
    (label : Option Name)
    (name : Name) :
    Gives (readBehindName depth inner label name) (ReadableWith depth P) := by
  refine (Argument.gives_readList false depth).bind fun as has =>
    (Directive.gives_readListWithin false depth).bind fun ds hds => (Gives.any _).bind fun b _ => ?_
  cases b with
  | true => exact h.bind fun ss hss => Gives.pure ⟨has, hds, fun _ => hss⟩
  | false => exact Gives.pure ⟨has, hds, fun some => absurd rfl some⟩

theorem gives_readBehindCondition
    (h : Gives inner P)
    (condition : Option Name) :
    Gives (readBehindCondition depth inner condition) (ReadableWith depth P) :=
  (Directive.gives_readListWithin false depth).bind fun _ hds => h.bind fun _ hss =>
    Gives.pure ⟨hds, hss⟩

theorem gives_readWith
    (h : Gives inner P) :
    Gives (readWith depth inner) (ReadableWith depth P) := by
  have field : Gives (readField depth inner) (ReadableWith depth P) := by
    refine (Gives.any _).bind fun first _ => (Gives.any _).bind fun labelled _ => ?_
    cases labelled with
    | true => exact (Gives.any _).bind fun name _ => gives_readBehindName h (some first) name
    | false => exact gives_readBehindName h none first
  have fragment : Gives (readFragment depth inner) (ReadableWith depth P) := by
    refine (Gives.any _).bind fun _ _ => (Gives.any _).bind fun o _ => ?_
    cases o with
    | none => exact gives_readBehindCondition h none
    | some n =>
        by_cases on : n = Keyword.on.name
        · simp only [if_pos on]
          exact (Gives.any _).bind fun c _ => gives_readBehindCondition h (some c)
        · simp only [if_neg on]
          exact (Directive.gives_readListWithin false depth).bind fun ds hds =>
            Gives.pure ⟨on, hds⟩
  exact (Gives.any _).bind fun b _ => Gives.ite fragment field

theorem gives_readSetWithin
    (depth : Nat) :
    Gives (readSetWithin depth) (SetReadableWithin depth) := by
  induction depth with
  | zero => exact Gives.failure
  | succ depth ih =>
      rw [readSetWithin_succ]
      refine (Gives.any _).bind fun _ _ => (gives_readWith ih).bind fun s hs =>
        (gives_manyUntil (gives_readWith ih)).bind fun ss hss => ?_
      exact Gives.pure ⟨List.cons_ne_nil s ss, List.forall_mem_cons.mpr ⟨hs, hss⟩⟩

end Readable

section Layouts

variable {condition label : Option Name} {name fragment : Name} {arguments : List Argument}
  {directives : List Directive} {ss : List Selection}

/-- The selection set of a field, which is left out if it is empty. -/
def nestedLayout : List Selection → Layout
  | [] => []
  | ss => .space :: setLayout ss

theorem layouts_eq
    (ss : List Selection) :
    layouts ss = ss.map layout := by
  induction ss with
  | nil => rfl
  | cons s ss ih => rw [layouts, ih, List.map_cons]

theorem setLayout_eq
    (h : ss ≠ []) :
    setLayout ss = braced (layouts ss) := by
  cases ss with
  | nil => exact absurd rfl h
  | cons s ss => rfl

theorem layout_field :
    (field label name arguments directives ss).layout =
      labelLayout label ++ (Layout.name name ++ (Argument.listLayout arguments
        ++ (Directive.listLayout directives ++ nestedLayout ss))) := by
  cases ss <;> simp [layout, nestedLayout, setLayout, layouts]

theorem layout_spread :
    (spread fragment directives).layout =
      Layout.punct .spread ++ (Layout.name fragment ++ Directive.listLayout directives) := by
  simp [layout]

theorem layout_inline
    (h : ss ≠ []) :
    (inline condition directives ss).layout =
      Layout.punct .spread ++ (conditionLayout condition
        ++ (Directive.listLayout directives ++ .space :: setLayout ss)) := by
  simp [layout, setLayout_eq h]

/-- A set is written as its first selection, and the others each behind a space. -/
theorem setLayout_cons
    (s : Selection)
    (ss : List Selection) :
    setLayout (s :: ss) =
      Layout.punct .leftBrace ++ .space :: (s.layout ++ itemsLayout layout .rightBrace ss) := by
  rw [setLayout_eq (List.cons_ne_nil s ss), layouts_eq, braced, Layout.spaced, List.map_cons,
    Layout.separated_cons, itemsLayout, List.flatMap_map]
  simp

end Layouts

section Rereading

variable {depth : Nat} {inner : Reader (List Selection)} {P : List Selection → Prop}
  {condition label : Option Name} {name fragment : Name} {arguments : List Argument}
  {directives : List Directive} {ss : List Selection}

/-- What can follow a selection: nothing that would continue it. -/
def concluded : Option Token → Prop :=
  fun o => applied o ∧ other (.punct .leftBrace) o ∧ other (.punct .colon) o

/-- The first token of a selection may stand behind another selection. -/
theorem exists_first
    (s : Selection) :
    ∃ t ts, s.layout.tokens = t :: ts ∧ t ≠ .punct .rightBrace ∧ concluded (some t) := by
  have dots : concluded (some (.punct .spread)) := ⟨⟨nofun, nofun⟩, nofun, nofun⟩
  have named : ∀ n, concluded (some (.name n)) := fun _ => ⟨⟨nofun, nofun⟩, nofun, nofun⟩
  cases s with
  | field label name arguments directives ss =>
      rw [layout_field]
      cases label with
      | none => exact ⟨.name name, _, rfl, nofun, named name⟩
      | some a => exact ⟨.name a, _, rfl, nofun, named a⟩
  | spread fragment directives => exact ⟨.punct .spread, _, rfl, nofun, dots⟩
  | inline condition directives ss => exact ⟨.punct .spread, _, rfl, nofun, dots⟩

theorem tokens_setLayout
    (ss : List Selection) :
    ∃ ts, (setLayout ss).tokens = .punct .leftBrace :: ts := by
  cases ss <;> exact ⟨_, rfl⟩

/-- What may follow if there is no selection set, and may be the beginning of one, may be
followed by one. -/
theorem may_follow_nestedLayout
    {next : Option Token → Prop}
    (starts : next (some (.punct .leftBrace)))
    {o : Option Token}
    (ho : next o) :
    next ((nestedLayout ss).tokens.head?.or o) := by
  cases ss with
  | nil => exact ho
  | cons s ss => exact starts

/-- What stands behind the name of a field is no colon. -/
theorem may_follow_name
    {o : Option Token}
    (ho : concluded o) :
    other (.punct .colon) ((Argument.listLayout arguments
      ++ (Directive.listLayout directives ++ nestedLayout ss)).tokens.head?.or o) := by
  rw [Layout.tokens_append, Layout.tokens_append]
  cases arguments with
  | cons a as => exact nofun
  | nil =>
      exact follow_append (fun o => Directive.may_follow nofun directives)
        (fun o => may_follow_nestedLayout nofun) o ho.2.2

theorem readsLayout_behindName
    (reads : ∀ ss, P ss → ∀ comma, ReadsLayout comma inner (setLayout ss) ss anything)
    (readable : (field label name arguments directives ss).ReadableWith depth P)
    (comma : Bool) :
    ReadsLayout comma (readBehindName depth inner label name)
      (Argument.listLayout arguments ++ (Directive.listLayout directives ++ nestedLayout ss))
      (.field label name arguments directives ss) concluded := by
  obtain ⟨arguments', directives', nested⟩ := readable
  have selections : ∀ comma, ReadsLayout comma (do
      let selections ← do
        if ← atPunct .leftBrace then inner else pure []
      return field label name arguments directives selections) (nestedLayout ss)
      (field label name arguments directives ss) concluded := by
    intro comma
    cases ss with
    | nil =>
        have none : Reads (pure (field label name arguments directives [])) []
          (field label name arguments directives []) concluded := Reads.pure _
        exact ReadsLayout.look (reads_atPunct .leftBrace false) (none.onLayout comma)
          fun o ho => beq_false_of_ne ho.2.1
    | cons s ss =>
        have set := (reads _ (nested (List.cons_ne_nil s ss)) comma).return
          (field label name arguments directives)
        exact ReadsLayout.look (reads_atPunct .leftBrace true)
          (set.space.mono fun _ _ => trivial) fun _ _ => rfl
  refine ((Argument.reads_listLayout arguments').onLayout comma).bind (fun comma =>
    ((Directive.reads_listLayoutWithin directives').onLayout comma).bind selections ?_) ?_
  · intro o ho
    exact may_follow_nestedLayout applied_leftBrace ho.1
  · intro o ho
    rw [Layout.tokens_append]
    exact follow_append (fun o => Directive.may_follow nofun directives)
      (fun o => may_follow_nestedLayout nofun) o ho.1.1

theorem readsLayout_behindCondition
    (reads : ∀ ss, P ss → ∀ comma, ReadsLayout comma inner (setLayout ss) ss anything)
    (readable : (inline condition directives ss).ReadableWith depth P)
    (comma : Bool) :
    ReadsLayout comma (readBehindCondition depth inner condition)
      (Directive.listLayout directives ++ .space :: setLayout ss)
      (.inline condition directives ss) anything := by
  obtain ⟨directives', nested⟩ := readable
  refine ((Directive.reads_listLayoutWithin directives').onLayout comma).bind (fun comma =>
    (((reads ss nested comma).return (inline condition directives)).space)) fun o _ => ?_
  obtain ⟨ts, tokens⟩ := tokens_setLayout ss
  rw [Layout.tokens_space, tokens]
  exact applied_leftBrace

/-- Neither a name nor a comma stands behind the dots of an inline fragment that has no
condition. -/
theorem exists_punct_lexemes
    (directives : List Directive)
    (ss : List Selection) :
    ∃ p ls, Layout.lexemes false (Directive.listLayout directives ++ .space :: setLayout ss) =
      ⟨.punct p, false⟩ :: ls := by
  cases directives with
  | nil => cases ss <;> exact ⟨.leftBrace, _, rfl⟩
  | cons d ds => exact ⟨.atSign, _, rfl⟩

/-- A name is no label if no colon stands behind it. -/
theorem reads_acceptLabelColon :
    Reads acceptLabelColon [] false (other (.punct .colon)) := by
  intro ls rest hls hrest
  have unaccepted := reads_accept_other (.punct .colon) ls rest hls hrest
  rw [List.map_eq_nil_iff.mp hls] at unaccepted ⊢
  cases rest with
  | nil => rfl
  | cons l rest =>
      obtain ⟨t, comma⟩ := l
      cases comma with
      | true => rfl
      | false => exact unaccepted

/-- **Selections are read back**, if the sets inside of them are. -/
theorem readsLayout_layout
    (reads : ∀ ss, P ss → ∀ comma, ReadsLayout comma inner (setLayout ss) ss anything)
    (nonempty : ∀ ss, P ss → ss ≠ [])
    {s : Selection}
    (readable : s.ReadableWith depth P)
    (comma : Bool) :
    ReadsLayout comma (readWith depth inner) s.layout s concluded := by
  cases s with
  | field label name arguments directives ss =>
      have behind := readsLayout_behindName reads readable
      rw [layout_field]
      refine ReadsLayout.look (reads_accept_other (.punct .spread)) ?_ ?_
      · cases label with
        | none =>
            exact ReadsLayout.token (reads_name name)
              (ReadsLayout.look reads_acceptLabelColon (behind false) fun o => may_follow_name)
        | some a =>
            have labelled : ReadsLayout false acceptLabelColon (Layout.punct .colon) true anything :=
              fun _ _ => rfl
            exact ReadsLayout.token (reads_name a) (labelled.bind
              (fun _ => (ReadsLayout.token (reads_name name) (behind false)).space)
              fun _ _ => trivial)
      · intro o _
        cases label <;> exact nofun
  | spread fragment directives =>
      obtain ⟨notOn, directives'⟩ := readable
      have applications := ((Directive.reads_listLayoutWithin directives').onLayout false).return
        (spread fragment)
      rw [layout_spread]
      refine ReadsLayout.token (reads_accept (.punct .spread)) (ReadsLayout.unseparated
        ⟨.name fragment, _, rfl⟩ (ReadsLayout.token (reads_name? fragment) ?_))
      simp only [if_neg notOn]
      exact applications.mono fun _ ho => ho.1
  | inline condition directives ss =>
      have behind := readsLayout_behindCondition reads readable
      obtain ⟨p, ls, lexemes⟩ := exists_punct_lexemes directives ss
      rw [layout_inline (nonempty ss readable.2)]
      refine (ReadsLayout.token (reads_accept (.punct .spread)) (ReadsLayout.unseparated ?_ ?_)).mono
        (fun _ _ => trivial)
      · cases condition with
        | none => exact ⟨.punct p, ls, lexemes⟩
        | some n => exact ⟨.name Keyword.on.name, _, rfl⟩
      · cases condition with
        | none =>
            refine ReadsLayout.look reads_name?_unnamed (behind false) fun o _ => ?_
            show unnamed ((Layout.tokens (Directive.listLayout directives
              ++ .space :: setLayout ss)).head?.or o)
            rw [← Layout.map_token_lexemes false, lexemes]
            exact nofun
        | some n =>
            refine (ReadsLayout.token (reads_name? Keyword.on.name) ?_).space
            simp only [if_true]
            exact (ReadsLayout.token (reads_name n) (behind false)).space

theorem readsLayout_setLayout
    (depth : Nat)
    {ss : List Selection}
    (h : SetReadableWithin depth ss)
    (comma : Bool) :
    ReadsLayout comma (readSetWithin depth) (setLayout ss) ss anything := by
  induction depth generalizing ss comma with
  | zero => exact absurd h not_false
  | succ depth ih =>
      obtain ⟨nonempty, readable⟩ := h
      obtain ⟨s, ss, rfl⟩ := List.exists_cons_of_ne_nil nonempty
      have items : ∀ t ∈ s :: ss, ∀ comma,
          ReadsLayout comma (readWith depth (readSetWithin depth)) t.layout t concluded :=
        fun t ht => readsLayout_layout (fun _ hss => ih hss) (fun _ => ne_nil_of_setReadableWithin)
          (readable t ht)
      have last : concluded (some (.punct .rightBrace)) := ⟨⟨nofun, nofun⟩, nofun, nofun⟩
      rw [readSetWithin_succ, setLayout_cons]
      exact ReadsLayout.token (reads_expect (.punct .leftBrace))
        (readsLayout_someUntil items (fun t _ => t.exists_first) last false).space

end Rereading

section Legible

open Layout

theorem legible_labelLayout
    (label : Option Name)
    {l : Layout}
    (h : l.Legible false) :
    (labelLayout label ++ l).Legible false := by
  cases label with
  | none => exact h
  | some n =>
      simp only [labelLayout, List.append_assoc]
      refine legible_append (legible_name n) ?_
      simpa using h

theorem legible_conditionLayout
    (condition : Option Name) :
    (conditionLayout condition).Legible true := by
  cases condition with
  | none => trivial
  | some n =>
      have word : (Keyword.on.layout ++ .space :: Layout.name n).Legible false :=
        legible_append (Keyword.legible_layout _) (by simp)
      simpa [conditionLayout] using word

theorem legible_braced
    {ls : List Layout}
    (h : ∀ l ∈ ls, l.Legible false) :
    (braced ls).Legible true := by
  have spaced : (Layout.spaced ls ++ .space :: Layout.punct .rightBrace).Legible false :=
    legible_append (legible_separated (by simp) h) (by simp)
  simpa [braced] using spaced

theorem legible_nestedLayout
    {ss : List Selection}
    (h : ∀ l ∈ layouts ss, l.Legible false) :
    (nestedLayout ss).Legible true := by
  cases ss with
  | nil => trivial
  | cons s ss => exact legible_space.mpr (legible_of_behind (legible_braced h))

mutual

theorem legible_layout :
    (s : Selection) → s.layout.Legible false
  | .field label n arguments directives ss => by
      rw [layout_field]
      exact legible_labelLayout label (legible_append (legible_name n)
        (legible_append (Argument.legible_listLayout arguments)
          (legible_append (Directive.legible_listLayout directives)
            (legible_nestedLayout (legible_layouts ss)))))
  | .spread fragment directives => by
      rw [layout_spread, legible_punct_append]
      exact ⟨nofun, legible_append (legible_name fragment) (Directive.legible_listLayout directives)⟩
  | .inline condition directives ss => by
      rw [layout, List.append_assoc, List.append_assoc, legible_punct_append]
      exact ⟨nofun, legible_of_behind (legible_append (legible_conditionLayout condition)
        (legible_append (Directive.legible_listLayout directives)
          (legible_space.mpr (legible_of_behind (legible_braced (legible_layouts ss))))))⟩

theorem legible_layouts :
    (ss : List Selection) → ∀ l ∈ layouts ss, l.Legible false
  | [] => by simp [layouts]
  | s :: ss => List.forall_mem_cons.mpr ⟨legible_layout s, legible_layouts ss⟩

end

theorem legible_setLayout
    {ss : List Selection}
    (h : ss ≠ []) :
    (setLayout ss).Legible false := by
  rw [setLayout_eq h]
  exact legible_of_behind (legible_braced (legible_layouts ss))

end Legible

/-- **A text is read back** as the selection that it was written from just if the selection is
readable. -/
theorem parse?_text_iff
    (s : Selection) :
    parse? s.text = some s ↔ s.Readable := by
  rw [parse?, text, Lexeme.scan_render s.legible_layout, Option.bind_some, all?_eq_some_iff]
  constructor
  · exact gives_readWith (gives_readSetWithin _) _ s []
  · intro h
    have read := readsLayout_layout (fun _ hss => readsLayout_setLayout _ hss)
      (fun _ => ne_nil_of_setReadableWithin) h false [] ⟨⟨nofun, nofun⟩, nofun, nofun⟩
    rwa [List.append_nil] at read

/-- **A selection set is read back** just if each of its selections is. -/
theorem parseSet?_setText_iff
    {ss : List Selection}
    (nonempty : ss ≠ []) :
    parseSet? (setText ss) = some ss ↔ ∀ s ∈ ss, parse? s.text = some s := by
  have readable : SetReadableWithin maxNesting ss ↔ ∀ s ∈ ss, parse? s.text = some s := by
    simp only [parse?_text_iff]
    exact and_iff_right nonempty
  rw [← readable, parseSet?, setText, Lexeme.scan_render (legible_setLayout nonempty),
    Option.bind_some, all?_eq_some_iff]
  constructor
  · exact gives_readSetWithin maxNesting _ ss []
  · intro h
    have read := readsLayout_setLayout maxNesting h false [] trivial
    rwa [List.append_nil] at read

end Selection

end Supergraph
