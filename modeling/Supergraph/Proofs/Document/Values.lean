import Supergraph.Document.Writing
import Supergraph.Proofs.Document.Readable
import Supergraph.Proofs.Text.Readers

/-!
# Values, type references and applications are read back

The tokens of a value, of a type reference and of applications of directives are read as
what was written, if it is readable at all (`Value.reads_layout`, `TypeRef.reads_layout`,
`Directive.reads_listLayout`).
-/

namespace Supergraph

open Reader

namespace Layout

section Tokens

variable {l m : Layout} {ls : List Layout}

@[simp] theorem tokens_nil :
    tokens [] = [] :=
  rfl

@[simp] theorem tokens_append :
    tokens (l ++ m) = l.tokens ++ m.tokens :=
  List.filterMap_append

@[simp] theorem tokens_space :
    tokens (.space :: l) = tokens l :=
  rfl

@[simp] theorem tokens_comma :
    tokens (.comma :: l) = tokens l :=
  rfl

@[simp] theorem tokens_newline
    (level : Nat) :
    tokens (.newline level :: l) = tokens l :=
  rfl

@[simp] theorem tokens_punct
    (p : Punctuator) :
    tokens (punct p) = [.punct p] :=
  rfl

@[simp] theorem tokens_name
    (n : Name) :
    tokens (name n) = [.name n] :=
  rfl

@[simp] theorem tokens_doc
    (level : Nat)
    (d : Option String) :
    tokens (doc level d) = d.toList.map .string := by
  cases d with
  | none => rfl
  | some s =>
      simp only [doc]
      split <;> rfl

@[simp] theorem tokens_string
    (style : Style)
    (s : String) :
    tokens (string style s) = [.string s] := by
  cases style with
  | oneLine => rfl
  | broken level =>
      simp only [string]
      split <;> rfl

@[simp] theorem tokens_itemized
    (level : Nat)
    (ls : List Layout) :
    tokens (itemized level ls) = ls.flatMap tokens := by
  induction ls with
  | nil => rfl
  | cons l ls ih =>
      rw [itemized, List.flatMap_cons, tokens_append]
      simpa [itemized] using ih

@[simp] theorem tokens_stacked
    (level : Nat)
    (ls : List Layout) :
    tokens (stacked level ls) = ls.flatMap tokens := by
  induction ls with
  | nil => rfl
  | cons l ls ih =>
      rw [stacked, List.flatMap_cons, tokens_append]
      simpa [stacked] using ih

theorem tokens_separated
    (sep : Layout)
    (l : Layout)
    (ls : List Layout) :
    tokens (separated sep (l :: ls)) = l.tokens ++ ls.flatMap (fun m => sep.tokens ++ m.tokens) := by
  induction ls generalizing l with
  | nil => simp [separated]
  | cons m ls ih =>
      show tokens (l ++ sep ++ separated sep (m :: ls)) = _
      simp [ih]

@[simp] theorem tokens_listed
    (ls : List Layout) :
    tokens (listed ls) = ls.flatMap tokens := by
  cases ls with
  | nil => rfl
  | cons l ls => simp [listed, tokens_separated]

@[simp] theorem tokens_bracketed
    (style : Style)
    (opening close : Punctuator)
    (ls : List Layout) :
    tokens (bracketed style opening close ls) =
      [.punct opening] ++ (ls.flatMap tokens ++ [.punct close]) := by
  cases ls with
  | nil => cases style <;> rfl
  | cons l ls => cases style <;> simp [bracketed]

end Tokens

end Layout

@[simp] theorem Keyword.tokens_layout
    (k : Keyword) :
    k.layout.tokens = [.name k.name] :=
  rfl

@[simp] theorem Reader.found_map_some
    {α : Type}
    (xs : List α) :
    found (xs.map some) = xs := by
  simp [found]

theorem Reader.reads_next
    (t : Token) :
    Reads next [t] t anything := by
  intro ls rest hls _
  obtain ⟨l, rfl, rfl⟩ := List.map_eq_singleton_iff.mp hls
  rfl

namespace Value

theorem itemLayouts_eq
    (style : Layout.Style)
    (vs : List Value) :
    itemLayouts style vs = vs.map (layout style) := by
  induction vs with
  | nil => rfl
  | cons v vs ih => rw [itemLayouts, ih, List.map_cons]

theorem fieldLayouts_eq
    (style : Layout.Style)
    (fs : List (Name × Value)) :
    fieldLayouts style fs =
      fs.map (fun f => Layout.name f.1 ++ Layout.punct .colon ++ .space :: f.2.layout style) := by
  induction fs with
  | nil => rfl
  | cons f fs ih =>
      obtain ⟨n, v⟩ := f
      rw [fieldLayouts, ih, List.map_cons]

/-- No value begins with the end of a list. -/
theorem exists_first
    (style : Layout.Style)
    (v : Value) :
    ∃ t ts, (v.layout style).tokens = t :: ts ∧ t ≠ .punct .rightBracket := by
  cases v with
  | boolean b => cases b <;> exact ⟨_, _, rfl, nofun⟩
  | string s => exact ⟨_, _, Layout.tokens_string style s, nofun⟩
  | list items => exact ⟨_, _, Layout.tokens_bracketed style _ _ _, nofun⟩
  | object fields => exact ⟨_, _, Layout.tokens_bracketed style _ _ _, nofun⟩
  | null => exact ⟨_, _, rfl, nofun⟩
  | int l => exact ⟨_, _, rfl, nofun⟩
  | float l => exact ⟨_, _, rfl, nofun⟩
  | enum n => exact ⟨_, _, rfl, nofun⟩
  | var n => exact ⟨_, _, rfl, nofun⟩

/-- A field is read if its value is. -/
theorem reads_readField
    {inner : Reader Value}
    {style : Layout.Style}
    {f : Name × Value}
    (reads : Reads inner (f.2.layout style).tokens f.2 anything) :
    Reads (readField inner)
      (Layout.name f.1 ++ Layout.punct .colon ++ .space :: f.2.layout style).tokens
      (some f) anything := by
  have value : Reads (do let v ← inner; return some (f.1, v)) (f.2.layout style).tokens (some f)
      anything := reads.return fun v => some (f.1, v)
  have tokens : (Layout.name f.1 ++ Layout.punct .colon ++ .space :: f.2.layout style).tokens =
      [.name f.1] ++ ([.punct .colon] ++ (f.2.layout style).tokens) := by
    simp
  rw [tokens]
  exact (reads_name f.1).bind
    ((reads_accept (.punct .colon)).bind value fun _ _ => trivial) fun _ _ => trivial

theorem reads_readWith
    {constant : Bool}
    {inner : Reader Value}
    {P : Value → Prop}
    (reads : ∀ style v, P v → Reads inner (v.layout style).tokens v anything)
    {v : Value}
    (h : v.ReadableWith constant P)
    (style : Layout.Style) :
    Reads (readWith constant inner) (v.layout style).tokens v anything := by
  cases v with
  | null => exact (reads_next _).bind (Reads.pure null) fun _ _ => trivial
  | boolean b =>
      cases b with
      | true => exact (reads_next _).bind (Reads.pure (boolean true)) fun _ _ => trivial
      | false => exact (reads_next _).bind (Reads.pure (boolean false)) fun _ _ => trivial
  | int l => exact (reads_next _).bind (Reads.pure (Value.int l)) fun _ _ => trivial
  | float l => exact (reads_next _).bind (Reads.pure (Value.float l)) fun _ _ => trivial
  | string s =>
      have tokens : ((string s).layout style).tokens = [.string s] := Layout.tokens_string style s
      rw [tokens]
      exact (reads_next _).bind (Reads.pure (Value.string s)) fun _ _ => trivial
  | enum n =>
      have named : Reads (pure (ofName n)) [] (enum n) anything := by
        rw [show ofName n = enum n from h]
        exact Reads.pure _
      exact (reads_next (.name n)).bind named fun _ _ => trivial
  | var n =>
      cases h
      exact (reads_next (.punct .dollar)).bind ((reads_name n).return Value.var) fun _ _ => trivial
  | list items =>
      have inside : Reads (manyUntil .rightBracket inner)
          (items.flatMap (fun v => (v.layout style.inner).tokens) ++ [.punct .rightBracket])
          (items.map id) anything :=
        reads_manyUntil (fun v hv => reads style.inner v (h v hv)) (fun v _ => by
          obtain ⟨t, ts, first, other⟩ := v.exists_first style.inner
          exact ⟨t, ts, first, other, trivial⟩) trivial
      rw [List.map_id] at inside
      have tokens : ((list items).layout style).tokens = [.punct .leftBracket] ++
          (items.flatMap (fun v => (v.layout style.inner).tokens) ++ [.punct .rightBracket]) := by
        simp [layout, itemLayouts_eq, List.flatMap_map]
      rw [tokens]
      exact (reads_next (.punct .leftBracket)).bind (inside.return Value.list) fun _ _ => trivial
  | object fields =>
      have inside : Reads (manyUntil .rightBrace (readField inner))
          (fields.flatMap (fun f => (Layout.name f.1 ++ Layout.punct .colon
            ++ .space :: f.2.layout style.inner).tokens) ++ [.punct .rightBrace])
          (fields.map some) anything :=
        reads_manyUntil (fun f hf => reads_readField (reads style.inner f.2 (h f hf)))
          (fun f _ => ⟨.name f.1, _, rfl, by simp, trivial⟩) trivial
      have read := inside.return fun fs => object (found fs)
      rw [found_map_some] at read
      have tokens : ((object fields).layout style).tokens = [.punct .leftBrace] ++
          (fields.flatMap (fun f => (Layout.name f.1 ++ Layout.punct .colon
            ++ .space :: f.2.layout style.inner).tokens) ++ [.punct .rightBrace]) := by
        simp [layout, fieldLayouts_eq, List.flatMap_map]
      rw [tokens]
      exact (reads_next (.punct .leftBrace)).bind read fun _ _ => trivial

/-- **Values are read back.** -/
theorem reads_layout
    {constant : Bool}
    {depth : Nat}
    {v : Value}
    (h : v.ReadableWithin constant depth)
    (style : Layout.Style) :
    Reads (readWithin constant depth) (v.layout style).tokens v anything := by
  induction depth generalizing v style with
  | zero => exact reads_readWith (fun _ _ h => absurd h not_false) h style
  | succ depth ih => exact reads_readWith (fun style v hv => ih hv style) h style

end Value

namespace TypeRef

theorem reads_readWith
    {item : Reader TypeRef}
    {P : TypeRef → Prop}
    (reads : ∀ t, P t → Reads item t.layout.tokens t (other (.punct .bang)))
    {t : TypeRef}
    (h : t.ReadableWith P) :
    Reads (readWith item) t.layout.tokens t (other (.punct .bang)) := by
  have bang : ∀ b, Reads (acceptPunct .bang) (bangLayout b).tokens b (other (.punct .bang)) := by
    intro b
    cases b with
    | true => exact (reads_accept (.punct .bang)).mono fun _ _ => trivial
    | false => exact reads_accept_other (.punct .bang)
  cases t with
  | named n b =>
      have tokens : (named n b).layout.tokens = [.name n] ++ (bangLayout b).tokens := by
        simp [layout]
      rw [tokens]
      exact (reads_accept_other (.punct .leftBracket)).look
        ((reads_name n).bind ((bang b).return (named n)) fun _ _ => trivial) fun _ _ => nofun
  | list t b =>
      have tokens : (list t b).layout.tokens =
          [.punct .leftBracket] ++ (t.layout.tokens ++ ([.punct .rightBracket] ++ (bangLayout b).tokens)) := by
        simp [layout]
      rw [tokens]
      refine (reads_accept (.punct .leftBracket)).bind ((reads t h).bind
        ((reads_expect (.punct .rightBracket)).bind ((bang b).return (list t)) fun _ _ => trivial)
        fun _ _ => nofun) fun _ _ => trivial

theorem reads_layoutWithin
    {depth : Nat}
    {t : TypeRef}
    (h : t.ReadableWithin depth) :
    Reads (readWithin depth) t.layout.tokens t (other (.punct .bang)) := by
  induction depth generalizing t with
  | zero => exact reads_readWith (fun _ h => absurd h not_false) h
  | succ depth ih => exact reads_readWith (fun _ => ih) h

/-- **Type references are read back.** -/
theorem reads_layout
    {t : TypeRef}
    (h : t.Readable) :
    Reads read t.layout.tokens t (other (.punct .bang)) :=
  reads_layoutWithin h

end TypeRef

section Applications

variable {constant : Bool} {depth : Nat}

theorem Argument.reads_layout
    {a : Argument}
    (h : a.value.ReadableWithin constant depth) :
    Reads (read constant depth) a.layout.tokens (some a) anything := by
  have tokens : a.layout.tokens =
      [.name a.name] ++ ([.punct .colon] ++ (a.value.layout .oneLine).tokens) := by
    simp [layout]
  have value := (Value.reads_layout h .oneLine).return fun v => some (⟨a.name, v⟩ : Argument)
  rw [tokens]
  exact (reads_name a.name).bind
    ((reads_accept (.punct .colon)).bind value fun _ _ => trivial) fun _ _ => trivial

theorem Argument.tokens_listLayout
    (as : List Argument) :
    (listLayout as).tokens =
      grouped .leftParen .rightParen (as.map (fun a => a.layout.tokens)) := by
  cases as with
  | nil => rfl
  | cons a as => simp [listLayout, grouped, List.flatMap, Function.comp_def]

theorem Argument.reads_listLayout
    {as : List Argument}
    (h : ∀ a ∈ as, a.value.ReadableWithin constant depth) :
    Reads (readList constant depth) (listLayout as).tokens as (other (.punct .leftParen)) := by
  have group : Reads (optionalGroup .leftParen .rightParen (read constant depth))
      (listLayout as).tokens (as.map some) (other (.punct .leftParen)) := by
    rw [tokens_listLayout]
    exact reads_optionalGroup (fun a ha => Argument.reads_layout (h a ha))
      (fun a _ => ⟨.name a.name, _, rfl, by simp, trivial⟩) trivial
  have read := group.return found
  rwa [found_map_some] at read

theorem Directive.exists_first
    (d : Directive) :
    ∃ ts, d.layout.tokens = .punct .atSign :: ts :=
  ⟨_, rfl⟩

theorem Directive.reads_layout
    {d : Directive}
    (h : d.ReadableWithin constant depth) :
    Reads (readWithin constant depth) d.layout.tokens d (other (.punct .leftParen)) := by
  have tokens : d.layout.tokens =
      [.punct .atSign] ++ ([.name d.name] ++ (Argument.listLayout d.arguments).tokens) := by
    simp [layout]
  have arguments := (Argument.reads_listLayout h).return fun as => (⟨d.name, as⟩ : Directive)
  rw [tokens]
  exact (reads_expect (.punct .atSign)).bind
    ((reads_name d.name).bind arguments fun _ _ => trivial) fun _ _ => trivial

@[simp] theorem Directive.tokens_listLayout
    (ds : List Directive) :
    (listLayout ds).tokens = ds.flatMap (fun d => d.layout.tokens) := by
  induction ds with
  | nil => rfl
  | cons d ds ih =>
      have cons : listLayout (d :: ds) = (.space :: d.layout) ++ listLayout ds := rfl
      rw [cons, Layout.tokens_append, Layout.tokens_space, ih, List.flatMap_cons]

/-- What can follow applications: neither arguments nor another one. -/
def applied : Option Token → Prop :=
  fun o => other (.punct .leftParen) o ∧ o ≠ some (.punct .atSign)

theorem Directive.reads_listLayoutWithin
    {ds : List Directive}
    (h : ∀ d ∈ ds, d.ReadableWithin constant depth) :
    Reads (readListWithin constant depth) (listLayout ds).tokens ds applied := by
  have read : Reads (readListWithin constant depth) (ds.flatMap (fun d => d.layout.tokens))
      (ds.map id) applied :=
    reads_manyWhile (fun d hd => Directive.reads_layout (h d hd))
      (fun d _ => d.exists_first) nofun
  rwa [List.map_id, ← tokens_listLayout] at read

theorem Directive.reads_listLayout
    {ds : List Directive}
    (h : ∀ d ∈ ds, d.Readable) :
    Reads (readList true) (listLayout ds).tokens ds applied :=
  reads_listLayoutWithin h

/-- What may follow if there are no applications, and may be the beginning of one, may be
followed by them. -/
theorem Directive.may_follow
    {next : Option Token → Prop}
    (starts : next (some (.punct .atSign)))
    (ds : List Directive)
    {o : Option Token}
    (ho : next o) :
    next ((listLayout ds).tokens.head?.or o) := by
  rw [tokens_listLayout]
  exact may_follow_start (fun d _ => d.exists_first) starts ho

end Applications

end Supergraph
