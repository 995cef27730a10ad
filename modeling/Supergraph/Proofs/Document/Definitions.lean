import Supergraph.Proofs.Document.Values

/-!
# Definitions are read back

The tokens of a definition behind its keyword are read as the definition, part by part
(`TypeText.reads_layout`, `SchemaText.reads_layout`, `DirectiveDef.reads_layout`).
-/

namespace Supergraph

open Reader

section Members

/-- What can follow a member: no punctuator that would continue it. -/
def ended : Option Token → Prop :=
  fun o => ∀ p, o = some (.punct p) → p = .rightParen ∨ p = .rightBrace

theorem other_of_ended
    {p : Punctuator}
    (h : p ≠ .rightParen ∧ p ≠ .rightBrace)
    {o : Option Token}
    (ho : ended o) :
    other (.punct p) o := by
  intro hp
  rcases ho p hp with rfl | rfl
  · exact h.1 rfl
  · exact h.2 rfl

theorem ended_close
    {p : Punctuator}
    (h : p = .rightParen ∨ p = .rightBrace) :
    ended (some (.punct p)) := by
  intro q hq
  cases hq
  exact h

theorem applied_of_ended
    {o : Option Token}
    (ho : ended o) :
    applied o :=
  ⟨other_of_ended (by decide) ho, other_of_ended (by decide) ho⟩

theorem applied_leftBrace :
    applied (some (.punct .leftBrace)) := by
  simp [applied, other]

theorem Directive.reads_ended
    {ds : List Directive}
    (h : ∀ d ∈ ds, d.Readable) :
    Reads (readList true) (listLayout ds).tokens ds ended :=
  (Directive.reads_listLayout h).mono fun _ => applied_of_ended

/-- A default and what stands behind it. -/
theorem InputValue.reads_default
    {d : Option Value}
    (h : ∀ v ∈ d, v.Readable)
    (style : Layout.Style)
    {α : Type}
    (f : Option Value → Reader α)
    {ts : List Token}
    {x : α}
    (rest : Reads (f d) ts x ended)
    (link : ∀ o, ended o → other (.punct .equals) (ts.head?.or o)) :
    Reads (do
      let default ← do
        if ← acceptPunct .equals then some <$> Value.read true else pure none
      f default) ((defaultLayout style d).tokens ++ ts) x ended := by
  cases d with
  | none => exact (reads_accept_other (.punct .equals)).look rest link
  | some v =>
      have tokens : (defaultLayout style (some v)).tokens ++ ts =
          [.punct .equals] ++ ((v.layout style).tokens ++ ts) := by
        simp [defaultLayout]
      rw [tokens]
      exact (reads_accept (.punct .equals)).bind
        (((Value.reads_layout (h v rfl) style).map some).bind rest fun _ _ => trivial)
        fun _ _ => trivial

theorem InputValue.tokens_bareLayout
    (style : Layout.Style)
    (v : InputValue) :
    (v.bareLayout style).tokens = [.name v.name] ++ ([.punct .colon]
      ++ (v.type.layout.tokens ++ ((defaultLayout style v.default).tokens
        ++ (Directive.listLayout v.directives).tokens))) := by
  simp [bareLayout]

theorem InputValue.reads_bareLayout
    {v : InputValue}
    (h : v.Readable)
    (style : Layout.Style) :
    Reads read (v.description.toList.map .string ++ (v.bareLayout style).tokens) v ended := by
  have directives := Directive.reads_ended h.directives
  have default := reads_default h.default style (fun default => do
      let directives ← Directive.readList true
      return (⟨v.description, v.name, v.type, default, directives⟩ : InputValue))
    (directives.return fun ds => (⟨v.description, v.name, v.type, v.default, ds⟩ : InputValue))
    fun o ho => Directive.may_follow nofun v.directives (other_of_ended (by decide) ho)
  rw [tokens_bareLayout]
  refine (reads_string? v.description).bind ((reads_name v.name).bind
    ((reads_expect (.punct .colon)).bind ((TypeRef.reads_layout h.type).bind default ?_)
      fun _ _ => trivial) fun _ _ => trivial) fun _ _ => nofun
  intro o ho
  cases v.default with
  | none => exact Directive.may_follow nofun v.directives (other_of_ended (by decide) ho)
  | some d => exact nofun

/-- The tokens begin with a description or a name. -/
def Described (ts : List Token) : Prop :=
  ∃ (d : Option String) (n : Name) (us : List Token), ts = d.toList.map .string ++ .name n :: us

theorem exists_first_of_described
    {ts : List Token}
    (h : Described ts)
    (close : Punctuator) :
    ∃ t us, ts = t :: us ∧ t ≠ .punct close ∧ ended (some t) := by
  obtain ⟨d, n, us, rfl⟩ := h
  cases d with
  | none => exact ⟨.name n, us, rfl, nofun, nofun⟩
  | some s => exact ⟨.string s, .name n :: us, rfl, nofun, nofun⟩

/-- Members between brackets. -/
theorem reads_members
    {α : Type}
    {p : Reader α}
    {tok : α → List Token}
    {xs : List α}
    {opening close : Punctuator}
    (closes : close = .rightParen ∨ close = .rightBrace)
    (items : ∀ x ∈ xs, Reads p (tok x) x ended)
    (described : ∀ x ∈ xs, Described (tok x)) :
    Reads (optionalGroup opening close p) (grouped opening close (xs.map tok)) xs
      (other (.punct opening)) := by
  have read : Reads (optionalGroup opening close p) (grouped opening close (xs.map tok)) (xs.map id)
      (other (.punct opening)) :=
    reads_optionalGroup items (fun x hx => exists_first_of_described (described x hx) close)
      (ended_close closes)
  rwa [List.map_id] at read

theorem InputValue.tokens_layout
    (level : Nat)
    (v : InputValue) :
    (v.layout level).tokens =
      v.description.toList.map .string ++ (v.bareLayout (.broken level)).tokens := by
  simp [layout]

theorem InputValue.reads_layout
    {v : InputValue}
    (h : v.Readable)
    (level : Nat) :
    Reads read (v.layout level).tokens v ended := by
  rw [tokens_layout]
  exact InputValue.reads_bareLayout h (.broken level)

/-- Argument definitions are read in either form. -/
theorem InputValue.reads_listLayout
    {vs : List InputValue}
    (h : ∀ v ∈ vs, v.Readable)
    (level : Nat) :
    Reads readList (listLayout level vs).tokens vs (other (.punct .leftParen)) := by
  cases vs with
  | nil => exact (reads_accept_other (.punct .leftParen)).look (Reads.pure []) fun _ ho => ho
  | cons v vs =>
      by_cases lines : (v :: vs).any needsLine = true
      · have tokens : (listLayout level (v :: vs)).tokens = grouped .leftParen .rightParen
            ((v :: vs).map (fun w => (w.layout (level + 1)).tokens)) := by
          show Layout.tokens (if (v :: vs).any needsLine = true then _ else _) = _
          rw [if_pos lines]
          simp [grouped, List.flatMap, Function.comp_def]
        rw [tokens]
        refine reads_members (Or.inl rfl)
          (fun w hw => InputValue.reads_layout (h w hw) (level + 1)) fun w _ => ?_
        rw [tokens_layout, tokens_bareLayout]
        exact ⟨_, _, _, rfl⟩
      · have tokens : (listLayout level (v :: vs)).tokens = grouped .leftParen .rightParen
            ((v :: vs).map (fun w => (w.bareLayout .oneLine).tokens)) := by
          show Layout.tokens (if (v :: vs).any needsLine = true then _ else _) = _
          rw [if_neg lines]
          simp [grouped, List.flatMap, Function.comp_def]
        have undescribed : ∀ w ∈ v :: vs, w.description = none := by
          intro w hw
          have plain : needsLine w = false := by
            simpa using fun line => lines (List.any_eq_true.mpr ⟨w, hw, line⟩)
          simp only [needsLine, Bool.or_eq_false_iff, Option.isSome_eq_false_iff,
            Option.isNone_iff_eq_none] at plain
          exact plain.1
        rw [tokens]
        refine reads_members (Or.inl rfl) (fun w hw => ?_) fun w _ => ?_
        · have read := InputValue.reads_bareLayout (h w hw) .oneLine
          rwa [undescribed w hw] at read
        · rw [tokens_bareLayout]
          exact ⟨none, _, _, rfl⟩

theorem Field.reads_layout
    {f : Field}
    (h : f.Readable)
    (level : Nat) :
    Reads read (f.layout level).tokens f ended := by
  have tokens : (f.layout level).tokens = f.description.toList.map .string ++ ([.name f.name]
      ++ ((InputValue.listLayout level f.arguments).tokens ++ ([.punct .colon]
        ++ (f.type.layout.tokens ++ (Directive.listLayout f.directives).tokens)))) := by
    simp [layout]
  have directives := (Directive.reads_ended h.directives).return fun ds =>
    (⟨f.description, f.name, f.arguments, f.type, ds⟩ : Field)
  rw [tokens]
  exact (reads_string? f.description).bind ((reads_name f.name).bind
    ((InputValue.reads_listLayout h.arguments level).bind ((reads_expect (.punct .colon)).bind
      ((TypeRef.reads_layout h.type).bind directives fun o ho =>
        Directive.may_follow nofun f.directives (other_of_ended (by decide) ho))
      fun _ _ => trivial) fun _ _ => nofun) fun _ _ => trivial) fun _ _ => nofun

theorem EnumValue.reads_layout
    {v : EnumValue}
    (h : v.Readable)
    (level : Nat) :
    Reads read (v.layout level).tokens v ended := by
  have tokens : (v.layout level).tokens = v.description.toList.map .string ++ ([.name v.name]
      ++ (Directive.listLayout v.directives).tokens) := by
    simp [layout]
  have directives := (Directive.reads_ended h.directives).return fun ds =>
    (⟨v.description, v.name, ds⟩ : EnumValue)
  have checked : Reads (do
      if isReservedWord v.name then failure
      let directives ← Directive.readList true
      return (⟨v.description, v.name, directives⟩ : EnumValue))
      (Directive.listLayout v.directives).tokens v ended := by
    rw [h.name]
    exact directives
  rw [tokens]
  exact (reads_string? v.description).bind ((reads_name v.name).bind checked fun _ _ => trivial)
    fun _ _ => nofun

/-- Members between braces, or none. -/
theorem reads_bracedUnlessEmpty
    {α : Type}
    {p : Reader α}
    {layout : α → Layout}
    {xs : List α}
    (items : ∀ x ∈ xs, Reads p (layout x).tokens x ended)
    (described : ∀ x ∈ xs, Described (layout x).tokens) :
    Reads (TypeContents.readBraced p) (bracedUnlessEmpty (xs.map layout)).tokens xs
      (other (.punct .leftBrace)) := by
  have tokens : (bracedUnlessEmpty (xs.map layout)).tokens =
      grouped .leftBrace .rightBrace (xs.map (fun x => (layout x).tokens)) := by
    cases xs with
    | nil => rfl
    | cons x xs => simp [bracedUnlessEmpty, braced, grouped, List.flatMap, Function.comp_def]
  rw [tokens]
  exact reads_members (Or.inr rfl) items described

end Members

section Definitions

/-- What can follow a definition. -/
def concluded : Option Token → Prop :=
  fun o => ended o ∧ o ≠ some Keyword.implements.token

/-- What may follow two parts if it may follow each. -/
theorem follow_append
    {ts us : List Token}
    {next next' next'' : Option Token → Prop}
    (first : ∀ o, next' o → next (ts.head?.or o))
    (second : ∀ o, next'' o → next' (us.head?.or o))
    (o : Option Token)
    (ho : next'' o) :
    next ((ts ++ us).head?.or o) := by
  rw [List.head?_append, Option.or_assoc]
  exact first _ (second o ho)

/-- A braced group may be left out. -/
theorem follow_bracedUnlessEmpty
    {ls : List Layout}
    {next : Option Token → Prop}
    (starts : next (some (.punct .leftBrace)))
    {o : Option Token}
    (ho : next o) :
    next ((bracedUnlessEmpty ls).tokens.head?.or o) := by
  cases ls with
  | nil => exact ho
  | cons l ls => exact starts

/-- Names with a punctuator between any two. -/
theorem reads_names
    {p : Punctuator}
    (n : Name)
    (ns : List Name) :
    Reads (someBetween p Reader.name)
      (Layout.separated (.space :: Layout.punct p ++ [.space]) ((n :: ns).map Layout.name)).tokens
      (n :: ns) (other (.punct p)) := by
  have tokens : (Layout.separated (.space :: Layout.punct p ++ [.space])
      ((n :: ns).map Layout.name)).tokens =
        [.name n] ++ ns.flatMap (fun m => .punct p :: [.name m]) := by
    rw [List.map_cons, Layout.tokens_separated]
    simp [List.flatMap_map]
  have read : Reads (someBetween p Reader.name)
      ([.name n] ++ ns.flatMap (fun m => .punct p :: [.name m])) ((n :: ns).map id)
      (fun o => anything o ∧ o ≠ some (.punct p)) :=
    reads_someBetween (fun m _ => reads_name m) trivial rfl nofun
  rw [List.map_id] at read
  rw [tokens]
  exact read.mono fun _ ho => ⟨trivial, ho⟩

namespace TypeContents

/-- What can follow interfaces: neither the word for them nor another one. -/
def implemented : Option Token → Prop :=
  fun o => other Keyword.implements.token o ∧ other (.punct .ampersand) o

theorem reads_interfacesLayout
    (ns : List Name) :
    Reads readInterfaces (interfacesLayout ns).tokens ns implemented := by
  cases ns with
  | nil =>
      exact (reads_accept_other Keyword.implements.token).look (Reads.pure []) fun _ ho => ho.1
  | cons n ns =>
      have tokens : (interfacesLayout (n :: ns)).tokens = [Keyword.implements.token] ++
          (Layout.separated (.space :: Layout.punct .ampersand ++ [.space])
            ((n :: ns).map Layout.name)).tokens := by
        simp [interfacesLayout, Keyword.token]
      rw [tokens]
      exact (reads_accept Keyword.implements.token).bind
        ((reads_names n ns).mono fun _ ho => ho.2) fun _ _ => trivial

theorem reads_membersLayout
    (ns : List Name) :
    Reads readMembers (membersLayout ns).tokens ns
      (fun o => other (.punct .equals) o ∧ other (.punct .pipe) o) := by
  cases ns with
  | nil => exact (reads_accept_other (.punct .equals)).look (Reads.pure []) fun _ ho => ho.1
  | cons n ns =>
      have tokens : (membersLayout (n :: ns)).tokens = [.punct .equals] ++
          (Layout.separated (.space :: Layout.punct .pipe ++ [.space])
            ((n :: ns).map Layout.name)).tokens := by
        simp [membersLayout]
      rw [tokens]
      exact (reads_accept (.punct .equals)).bind
        ((reads_names n ns).mono fun _ ho => ho.2) fun _ _ => trivial

end TypeContents

theorem Field.described
    (level : Nat)
    (f : Field) :
    Described (f.layout level).tokens :=
  ⟨f.description, f.name, _, by simp [layout]; rfl⟩

theorem EnumValue.described
    (level : Nat)
    (v : EnumValue) :
    Described (v.layout level).tokens :=
  ⟨v.description, v.name, _, by simp [layout]; rfl⟩

theorem InputValue.described
    (level : Nat)
    (v : InputValue) :
    Described (v.layout level).tokens :=
  ⟨v.description, v.name, _, by rw [tokens_layout, tokens_bareLayout]; rfl⟩

theorem TypeText.tokens_layout
    (t : TypeText) :
    t.layout.tokens = [.name t.contents.kind.keyword.name] ++ ([.name t.name]
      ++ (t.contents.headLayout.tokens ++ ((Directive.listLayout t.directives).tokens
        ++ t.contents.bodyLayout.tokens))) := by
  simp [layout]

theorem applied_of_concluded
    {o : Option Token}
    (ho : concluded o) :
    applied o :=
  applied_of_ended ho.1

theorem other_of_concluded
    {p : Punctuator}
    (h : p ≠ .rightParen ∧ p ≠ .rightBrace)
    {o : Option Token}
    (ho : concluded o) :
    other (.punct p) o :=
  other_of_ended h ho.1

/-- Objects and interfaces are read in the same way. -/
theorem TypeText.reads_composite
    {interfaces : List Name}
    {ds : List Directive}
    {fields : List Field}
    (hds : ∀ d ∈ ds, d.Readable)
    (hfields : ∀ f ∈ fields, f.Readable)
    (make : List Name → List Directive → List Field → TypeText) :
    Reads (do
        let interfaces ← TypeContents.readInterfaces
        let directives ← Directive.readList true
        let fields ← TypeContents.readBraced Field.read
        return make interfaces directives fields)
      ((TypeContents.interfacesLayout interfaces).tokens ++ ((Directive.listLayout ds).tokens
        ++ (bracedUnlessEmpty (fields.map (Field.layout 1))).tokens))
      (make interfaces ds fields) concluded := by
  have braced : Reads (TypeContents.readBraced Field.read)
      (bracedUnlessEmpty (fields.map (Field.layout 1))).tokens fields concluded :=
    (reads_bracedUnlessEmpty (fun f hf => Field.reads_layout (hfields f hf) 1)
      fun f _ => f.described 1).mono fun _ ho => other_of_concluded (by decide) ho
  refine (TypeContents.reads_interfacesLayout interfaces).bind
    ((Directive.reads_listLayout hds).bind (braced.return (make interfaces ds)) fun o ho =>
      follow_bracedUnlessEmpty applied_leftBrace (applied_of_concluded ho)) ?_
  have starts : ∀ p, p ≠ .ampersand → TypeContents.implemented (some (.punct p)) :=
    fun p hp => ⟨nofun, fun h => hp (by cases h; rfl)⟩
  refine follow_append (fun o => Directive.may_follow (starts .atSign (by decide)) ds) fun o ho => ?_
  exact follow_bracedUnlessEmpty (starts .leftBrace (by decide))
    ⟨ho.2, other_of_concluded (by decide) ho⟩

/-- **Types are read back**, from behind the keyword. -/
theorem TypeText.reads_layout
    {t : TypeText}
    (h : t.Readable) :
    Reads (read t.contents.kind t.description) ([.name t.name]
      ++ (t.contents.headLayout.tokens ++ ((Directive.listLayout t.directives).tokens
        ++ t.contents.bodyLayout.tokens))) t concluded := by
  obtain ⟨description, name, ds, contents⟩ := t
  have directives := Directive.reads_listLayout h.directives
  cases contents with
  | scalar =>
      have all := (directives.mono fun _ => applied_of_concluded).return fun ds =>
        (⟨description, name, ds, .scalar⟩ : TypeText)
      simp only [TypeContents.headLayout, TypeContents.bodyLayout, Layout.tokens_nil,
        List.nil_append, List.append_nil]
      exact (reads_name name).bind all fun _ _ => trivial
  | object interfaces fields =>
      exact (reads_name name).bind (reads_composite h.directives h.contents fun is ds fs =>
        ⟨description, name, ds, .object is fs⟩) fun _ _ => trivial
  | interface interfaces fields =>
      exact (reads_name name).bind (reads_composite h.directives h.contents fun is ds fs =>
        ⟨description, name, ds, .interface is fs⟩) fun _ _ => trivial
  | union members =>
      have names : Reads TypeContents.readMembers (TypeContents.membersLayout members).tokens
          members concluded :=
        (TypeContents.reads_membersLayout members).mono fun _ ho =>
          ⟨other_of_concluded (by decide) ho, other_of_concluded (by decide) ho⟩
      refine (reads_name name).bind (directives.bind (names.return fun ms =>
        (⟨description, name, ds, .union ms⟩ : TypeText)) ?_) fun _ _ => trivial
      intro o ho
      cases members with
      | nil => exact applied_of_concluded ho
      | cons m ms => exact ⟨nofun, nofun⟩
  | enum values =>
      have braced : Reads (TypeContents.readBraced EnumValue.read)
          (bracedUnlessEmpty (values.map (EnumValue.layout 1))).tokens values concluded :=
        (reads_bracedUnlessEmpty (fun v hv => EnumValue.reads_layout (h.contents v hv) 1)
          fun v _ => v.described 1).mono fun _ ho => other_of_concluded (by decide) ho
      exact (reads_name name).bind (directives.bind (braced.return fun vs =>
        (⟨description, name, ds, .enum vs⟩ : TypeText)) fun o ho =>
        follow_bracedUnlessEmpty applied_leftBrace (applied_of_concluded ho)) fun _ _ => trivial
  | inputObject fields =>
      have braced : Reads (TypeContents.readBraced InputValue.read)
          (bracedUnlessEmpty (fields.map (InputValue.layout 1))).tokens fields concluded :=
        (reads_bracedUnlessEmpty (fun v hv => InputValue.reads_layout (h.contents v hv) 1)
          fun v _ => v.described 1).mono fun _ ho => other_of_concluded (by decide) ho
      exact (reads_name name).bind (directives.bind (braced.return fun fs =>
        (⟨description, name, ds, .inputObject fs⟩ : TypeText)) fun o ho =>
        follow_bracedUnlessEmpty applied_leftBrace (applied_of_concluded ho)) fun _ _ => trivial

namespace SchemaText

theorem reads_rootLayout
    (r : OperationKind × Name) :
    Reads readRoot (rootLayout r).tokens (some r) anything := by
  obtain ⟨k, n⟩ := r
  have tokens : (rootLayout (k, n)).tokens =
      [.name k.keyword.name] ++ ([.punct .colon] ++ [.name n]) := by
    simp [rootLayout]
  have typed : Reads (do
      Reader.punct .colon
      let n ← Reader.name?
      return n.map (fun n => (k, n))) ([.punct .colon] ++ [.name n]) (some (k, n)) anything :=
    (reads_expect (.punct .colon)).bind
      ((reads_name? n).return fun n => n.map (fun n => (k, n))) fun _ _ => trivial
  rw [tokens]
  cases k <;> exact (reads_name _).bind typed fun _ _ => trivial

theorem first_root
    (close : Punctuator)
    (r : OperationKind × Name) :
    ∃ t ts, (rootLayout r).tokens = t :: ts ∧ t ≠ .punct close ∧ anything (some t) :=
  ⟨_, _, rfl, nofun, trivial⟩

/-- The tokens of roots between braces. -/
theorem tokens_braced
    (rs : List (OperationKind × Name)) :
    (braced (rs.map rootLayout)).tokens =
      [.punct .leftBrace] ++ (rs.flatMap (fun r => (rootLayout r).tokens) ++ [.punct .rightBrace]) := by
  simp [braced, List.flatMap_map]

/-- **The schema definition is read back**, from behind the keyword. -/
theorem reads_layout
    {t : SchemaText}
    (h : t.Readable)
    (rooted : t.roots ≠ []) :
    Reads (read t.description) ((Directive.listLayout t.directives).tokens
      ++ (braced (t.roots.map rootLayout)).tokens) t concluded := by
  obtain ⟨description, ds, roots⟩ := t
  obtain ⟨r, rs, rfl⟩ := List.exists_cons_of_ne_nil rooted
  have group : Reads (optionalGroup .leftBrace .rightBrace readRoot)
      (grouped .leftBrace .rightBrace ((r :: rs).map (fun r => (rootLayout r).tokens)))
      ((r :: rs).map some) (other (.punct .leftBrace)) :=
    reads_optionalGroup (fun r _ => reads_rootLayout r) (fun r _ => first_root .rightBrace r) trivial
  have tokens : (braced ((r :: rs).map rootLayout)).tokens =
      grouped .leftBrace .rightBrace ((r :: rs).map (fun r => (rootLayout r).tokens)) := by
    rw [tokens_braced]
    simp [grouped, List.flatMap]
  have roots := group.return fun rs => (⟨description, ds, found rs⟩ : SchemaText)
  rw [found_map_some] at roots
  rw [tokens]
  exact (Directive.reads_listLayout h).bind (roots.mono fun o => other_of_concluded (by decide))
    fun _ _ => applied_leftBrace

/-- **Extensions of the schema are read back**, from behind the keyword. -/
theorem reads_extension
    {t : SchemaText}
    (h : t.Readable)
    (undescribed : t.description = none)
    (adds : (t.directives.isEmpty && t.roots.isEmpty) = false) :
    Reads readExtension ((Directive.listLayout t.directives).tokens
      ++ (bracedUnlessEmpty (t.roots.map rootLayout)).tokens) t concluded := by
  obtain ⟨description, ds, roots⟩ := t
  cases undescribed
  have checked : Reads (do
      if ds.isEmpty && (roots.map some).isEmpty then failure
      return (⟨none, ds, found (roots.map some)⟩ : SchemaText)) [] ⟨none, ds, roots⟩ anything := by
    rw [List.isEmpty_map, adds, found_map_some]
    exact Reads.pure _
  cases roots with
  | nil =>
      refine (Directive.reads_listLayout h).bind ((reads_accept_other (.punct .leftBrace)).look
        (checked.mono fun o (_ : concluded o) => trivial) fun o ho => ?_) fun o ho => ?_
      · exact other_of_concluded (by decide) ho
      · exact applied_of_concluded ho
  | cons r rs =>
      have group : Reads (manyUntil .rightBrace readRoot)
          ((r :: rs).flatMap (fun r => (rootLayout r).tokens) ++ [.punct .rightBrace])
          ((r :: rs).map some) anything :=
        reads_manyUntil (fun r _ => reads_rootLayout r) (fun r _ => first_root .rightBrace r) trivial
      have tokens : (bracedUnlessEmpty ((r :: rs).map rootLayout)).tokens = [.punct .leftBrace] ++
          ((r :: rs).flatMap (fun r => (rootLayout r).tokens) ++ [.punct .rightBrace]) :=
        tokens_braced (r :: rs)
      rw [tokens]
      refine (Directive.reads_listLayout h).bind ((reads_accept (.punct .leftBrace)).bind
        (group.check (checked.mono fun o (_ : concluded o) => trivial) fun _ _ => trivial)
        fun _ _ => trivial) fun _ _ => applied_leftBrace

end SchemaText

theorem Location.reads_layout
    (l : Location) :
    Reads read l.layout.tokens l anything := by
  cases l <;> exact (reads_name _).bind (Reads.pure _) fun _ _ => trivial

/-- **Directive definitions are read back**, from behind the keyword. -/
theorem DirectiveDef.reads_layout
    {d : DirectiveDef}
    (h : d.Readable)
    (own : d.builtIn = false) :
    Reads (read d.description) ([.punct .atSign] ++ ([.name d.name]
      ++ ((InputValue.listLayout 0 d.arguments).tokens
        ++ ((if d.repeatable then [Keyword.repeatable.token] else []) ++ ([Keyword.on.token]
          ++ (Layout.separated (.space :: Layout.punct .pipe ++ [.space])
            (d.locations.map Location.layout)).tokens))))) d concluded := by
  obtain ⟨description, name, arguments, repeatable, locations, builtIn⟩ := d
  cases own
  obtain ⟨l, ls, rfl⟩ := List.exists_cons_of_ne_nil h.locations
  have tokens : (Layout.separated (.space :: Layout.punct .pipe ++ [.space])
      ((l :: ls).map Location.layout)).tokens =
        l.layout.tokens ++ ls.flatMap (fun m => .punct .pipe :: m.layout.tokens) := by
    rw [List.map_cons, Layout.tokens_separated]
    simp [List.flatMap_map]
  have locations : Reads (someBetween .pipe Location.read)
      (l.layout.tokens ++ ls.flatMap (fun m => .punct .pipe :: m.layout.tokens)) ((l :: ls).map id)
      (fun o => anything o ∧ o ≠ some (.punct .pipe)) :=
    reads_someBetween (fun m _ => Location.reads_layout m) trivial rfl nofun
  rw [List.map_id] at locations
  have named := (locations.mono fun o (ho : concluded o) =>
    ⟨trivial, other_of_concluded (by decide) ho⟩).return fun ls =>
      (⟨description, name, arguments, repeatable, ls, false⟩ : DirectiveDef)
  have word : Reads Keyword.repeatable.accept
      (if repeatable then [Keyword.repeatable.token] else []) repeatable
      (other Keyword.repeatable.token) := by
    cases repeatable with
    | true => exact (reads_accept Keyword.repeatable.token).mono fun _ _ => trivial
    | false => exact reads_accept_other Keyword.repeatable.token
  rw [tokens]
  refine (reads_expect (.punct .atSign)).bind ((reads_name name).bind
    ((InputValue.reads_listLayout h.arguments 0).bind (word.bind
      ((reads_expect Keyword.on.token).bind named fun _ _ => trivial) ?_) ?_) fun _ _ => trivial)
      fun _ _ => trivial
  · exact fun o _ h => absurd (Option.some.inj h) (by decide)
  · intro o _
    cases repeatable <;> exact nofun

end Definitions

end Supergraph
