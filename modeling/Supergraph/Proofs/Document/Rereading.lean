import Supergraph.Proofs.Document.Definitions
import Supergraph.Proofs.Document.Legible

/-!
# Documents are read back

The text of a list of readable definitions is parsed as these definitions
(`systemDefinitions?_parse?`).  A definition has to be one that can be written at all: the
schema definition has a root, an extension adds something and has no description.
-/

namespace Supergraph

open Reader

theorem Reader.bind_of_eq
    {α β : Type}
    {p : Reader α}
    {ls rest : List Lexeme}
    {x : α}
    (h : p ls = some (x, rest))
    (f : α → Reader β) :
    (p >>= f) ls = f x rest := by
  show (p ls).bind (fun r => f r.1 r.2) = f x rest
  rw [h]
  rfl

namespace Layout

theorem map_token_lexemes
    (comma : Bool)
    (l : Layout) :
    (l.lexemes comma).map Lexeme.token = l.tokens := by
  induction l generalizing comma with
  | nil => rfl
  | cons piece l ih =>
      cases piece with
      | token t => exact congrArg (t :: ·) (ih false)
      | block level s => exact congrArg (Token.string s :: ·) (ih false)
      | space => exact ih _
      | comma => exact ih _
      | newline level => exact ih _

theorem exists_lexemes_append
    (comma : Bool)
    (l m : Layout) :
    ∃ comma', lexemes comma (l ++ m) = lexemes comma l ++ lexemes comma' m := by
  induction l generalizing comma with
  | nil => exact ⟨comma, rfl⟩
  | cons piece l ih =>
      cases token : piece.token? with
      | some t =>
          obtain ⟨comma', h⟩ := ih false
          exact ⟨comma', by simp [lexemes, token, h]⟩
      | none =>
          obtain ⟨comma', h⟩ := ih (comma || piece == .comma)
          exact ⟨comma', by simp [lexemes, token, h]⟩

end Layout

namespace Keyword

theorem ofName?_name
    (k : Keyword) :
    ofName? k.name = some k := by
  cases k <;> decide

end Keyword

namespace SystemDefinition

/-- The definition can be written so that nothing of it is left out. -/
def Complete : SystemDefinition → Prop
  | .schema t => t.roots ≠ []
  | .schemaExtension t => t.description = none ∧ (t.directives.isEmpty && t.roots.isEmpty) = false
  | .type _ => True
  | .typeExtension t => t.description = none ∧ t.addsNothing = false
  | .directive d => d.builtIn = false

end SystemDefinition

namespace Definition

variable {d : SystemDefinition} {k : Keyword} {ts : List Token} {ls : List Lexeme} {comma : Bool}

/-- A definition without a description begins with its keyword. -/
theorem read_undescribed :
    read (⟨.name k.name, comma⟩ :: ls) = readBare k ls := by
  cases k <;> rfl

theorem read_described
    (s : String)
    (h : k ≠ .fragment) :
    read (⟨.string s, comma⟩ :: ⟨.name k.name, false⟩ :: ls) =
      (do return .system (← SystemDefinition.readDescribed k (some s)) : Reader Definition) ls := by
  cases k
  case fragment => exact absurd rfl h
  all_goals rfl

/-- A definition with a description or without one. -/
theorem read_of_reads
    (k : Keyword)
    (description : Option String)
    (l : Layout)
    (written : d.layout = Layout.doc 0 description ++ (k.layout ++ l))
    (bare : readBare k = (do return .system (← SystemDefinition.readDescribed k none)))
    (notFragment : k ≠ .fragment)
    (reads : Reads (SystemDefinition.readDescribed k description) l.tokens d concluded)
    {rest : List Lexeme}
    (h : concluded (rest.head?.map Lexeme.token)) :
    read (d.layout.lexemes comma ++ rest) = some (.system d, rest) := by
  have read' := reads.return Definition.system (l.lexemes false) rest (l.map_token_lexemes false) h
  rw [written]
  cases description with
  | none =>
      show read (⟨.name k.name, comma⟩ :: (l.lexemes false ++ rest)) = _
      rw [read_undescribed, bare]
      exact read'
  | some s =>
      have lexemes : Layout.lexemes comma (Layout.doc 0 (some s) ++ (k.layout ++ l)) =
          ⟨.string s, comma⟩ :: ⟨.name k.name, false⟩ :: l.lexemes false := by
        simp only [Layout.doc]
        split <;> rfl
      rw [lexemes]
      exact (read_described s notFragment).trans read'

theorem bare_kind
    (kind : TypeKind) :
    readBare kind.keyword = (do return .system (← SystemDefinition.readDescribed kind.keyword none)) ∧
      kind.keyword ≠ .fragment ∧
      ∀ description, SystemDefinition.readDescribed kind.keyword description =
        (do return .type (← TypeText.read kind description)) := by
  cases kind <;> exact ⟨rfl, nofun, fun _ => rfl⟩

theorem readExtension_schema :
    SystemDefinition.readExtension (⟨.name Keyword.schema.name, false⟩ :: ls) =
      (do return .schemaExtension (← SchemaText.readExtension) : Reader SystemDefinition) ls :=
  rfl

theorem readExtension_type
    (kind : TypeKind) :
    SystemDefinition.readExtension (⟨.name kind.keyword.name, false⟩ :: ls) =
      (do
        let t ← TypeText.read kind none
        if t.addsNothing then failure
        return .typeExtension t : Reader SystemDefinition) ls := by
  cases kind <;> rfl

/-- An extension begins with two words, without a comma between them. -/
theorem read_extension
    {p : Reader SystemDefinition}
    {l : Layout}
    (written : d.layout = Keyword.extend.layout ++ (.space :: k.layout ++ l))
    (behind : ∀ ls, SystemDefinition.readExtension (⟨.name k.name, false⟩ :: ls) = p ls)
    (reads : Reads p l.tokens d concluded)
    {rest : List Lexeme}
    (h : concluded (rest.head?.map Lexeme.token)) :
    read (d.layout.lexemes comma ++ rest) = some (.system d, rest) := by
  have read' := reads (l.lexemes false) rest (l.map_token_lexemes false) h
  rw [written]
  show read (⟨.name Keyword.extend.name, comma⟩ :: ⟨.name k.name, false⟩
    :: (l.lexemes false ++ rest)) = _
  rw [read_undescribed]
  show (do return .system (← SystemDefinition.readExtension) : Reader Definition)
    (⟨.name k.name, false⟩ :: (l.lexemes false ++ rest)) = _
  exact Reader.bind_of_eq ((behind _).trans read') _

/-- **Definitions are read back.** -/
theorem read_layout
    (readable : d.Readable)
    (complete : d.Complete)
    {rest : List Lexeme}
    (h : concluded (rest.head?.map Lexeme.token)) :
    read (d.layout.lexemes comma ++ rest) = some (.system d, rest) := by
  cases d with
  | schema t =>
      have reads := (SchemaText.reads_layout readable complete).return SystemDefinition.schema
      rw [← Layout.tokens_append] at reads
      exact read_of_reads .schema t.description _ (by simp [SystemDefinition.layout]) rfl (by decide) reads h
  | schemaExtension t =>
      have reads := (SchemaText.reads_extension readable complete.1 complete.2).return
        SystemDefinition.schemaExtension
      rw [← Layout.tokens_append] at reads
      exact read_extension (by simp [SystemDefinition.layout]) (fun _ => readExtension_schema) reads h
  | type t =>
      obtain ⟨bare, notFragment, named⟩ := bare_kind t.contents.kind
      refine read_of_reads t.contents.kind.keyword t.description
        (.space :: Layout.name t.name ++ t.contents.headLayout
          ++ Directive.listLayout t.directives ++ t.contents.bodyLayout)
        (by simp [SystemDefinition.layout, TypeText.layout]) bare notFragment ?_ h
      rw [named]
      have reads := (TypeText.reads_layout readable).return SystemDefinition.type
      simpa using reads
  | typeExtension t =>
      obtain ⟨undescribed, adds⟩ := complete
      have checked : Reads (do
          if t.addsNothing then failure
          return SystemDefinition.typeExtension t) [] (.typeExtension t) concluded := by
        rw [adds]
        exact Reads.pure _
      have reads : Reads (do
          let t ← TypeText.read t.contents.kind none
          if t.addsNothing then failure
          return SystemDefinition.typeExtension t) _ (.typeExtension t) concluded :=
        (undescribed ▸ TypeText.reads_layout readable).check checked fun _ ho => ho
      refine read_extension (k := t.contents.kind.keyword) (l := .space :: Layout.name t.name
          ++ t.contents.headLayout ++ Directive.listLayout t.directives ++ t.contents.bodyLayout)
        (by simp [SystemDefinition.layout, TypeText.layout])
        (fun _ => readExtension_type t.contents.kind) ?_ h
      simpa using reads
  | directive d =>
      refine read_of_reads .directive d.description
        (.space :: Layout.punct .atSign ++ Layout.name d.name
          ++ InputValue.listLayout 0 d.arguments
          ++ (if d.repeatable then .space :: Keyword.repeatable.layout else [])
          ++ .space :: Keyword.on.layout ++ .space
          :: Layout.separated (.space :: Layout.punct .pipe ++ [.space]) (d.locations.map Location.layout))
        (by simp [SystemDefinition.layout, DirectiveDef.layout]) rfl (by decide) ?_ h
      have reads := (DirectiveDef.reads_layout readable.1 complete).return SystemDefinition.directive
      have repeatable : Layout.tokens (if d.repeatable then .space :: Keyword.repeatable.layout else []) =
          if d.repeatable then [Keyword.repeatable.token] else [] := by
        split <;> rfl
      have on : Keyword.on.layout.tokens = [Keyword.on.token] := rfl
      show Reads (do return SystemDefinition.directive (← DirectiveDef.read d.description)) _ _ _
      simpa [repeatable, on] using reads

end Definition

namespace SystemDefinition

/-- What a definition begins with: a word, with a description in front or without one. -/
theorem exists_layout
    (d : SystemDefinition) :
    ∃ description k l, d.layout = Layout.doc 0 description ++ (Keyword.layout k ++ l) ∧
      k ≠ .implements := by
  cases d with
  | schema t => exact ⟨t.description, .schema, _, by simp [layout]; rfl, by decide⟩
  | schemaExtension t => exact ⟨none, .extend, _, by simp [layout, Layout.doc]; rfl, by decide⟩
  | type t =>
      exact ⟨t.description, t.contents.kind.keyword, _, by simp [layout, TypeText.layout]; rfl,
        by cases t.contents.kind <;> decide⟩
  | typeExtension t => exact ⟨none, .extend, _, by simp [layout, Layout.doc]; rfl, by decide⟩
  | directive d =>
      exact ⟨d.description, .directive, _, by simp [layout, DirectiveDef.layout]; rfl, by decide⟩

/-- The first token of a definition may stand behind another definition. -/
theorem exists_first
    (d : SystemDefinition)
    (comma : Bool) :
    ∃ t ls, d.layout.lexemes comma = ⟨t, comma⟩ :: ls ∧ concluded (some t) := by
  obtain ⟨description, k, l, h, notImplements⟩ := d.exists_layout
  rw [h]
  cases description with
  | none =>
      refine ⟨.name k.name, l.lexemes false, rfl, nofun, fun same => notImplements ?_⟩
      have names : k.name = Keyword.implements.name := Token.name.inj (Option.some.inj same)
      have found := Keyword.ofName?_name k
      rw [names, Keyword.ofName?_name] at found
      exact (Option.some.inj found).symm
  | some s =>
      refine ⟨.string s, ⟨.name k.name, false⟩ :: l.lexemes false, ?_, nofun, nofun⟩
      simp only [Layout.doc]
      split <;> rfl

/-- The definitions stand one behind the other. -/
theorem lexemes_listLayout_cons
    (d : SystemDefinition)
    (ds : List SystemDefinition)
    (comma : Bool) :
    ∃ comma', Layout.lexemes comma (listLayout (d :: ds)) =
      d.layout.lexemes comma ++ Layout.lexemes comma' (listLayout ds) := by
  cases ds with
  | nil => exact Layout.exists_lexemes_append comma d.layout [.newline 0]
  | cons e es =>
      obtain ⟨comma', h⟩ := Layout.exists_lexemes_append comma d.layout
        (.newline 0 :: .newline 0 :: listLayout (e :: es))
      refine ⟨comma' || false || false, ?_⟩
      rw [← show Layout.lexemes comma' (.newline 0 :: .newline 0 :: listLayout (e :: es)) =
        Layout.lexemes (comma' || false || false) (listLayout (e :: es)) from rfl, ← h]
      simp [listLayout, Layout.separated]

theorem length_le_lexemes
    (ds : List SystemDefinition)
    (comma : Bool) :
    ds.length ≤ (Layout.lexemes comma (listLayout ds)).length := by
  induction ds generalizing comma with
  | nil => exact Nat.zero_le _
  | cons d ds ih =>
      obtain ⟨comma', h⟩ := lexemes_listLayout_cons d ds comma
      obtain ⟨t, ls, first, -⟩ := d.exists_first comma
      have rest := ih comma'
      rw [h, first, List.length_append, List.length_cons, List.length_cons]
      omega

end SystemDefinition

namespace Document

open SystemDefinition

variable {ds : List SystemDefinition}

/-- A definition is read in front of others. -/
theorem read_front
    {d : SystemDefinition}
    (readable : d.Readable)
    (complete : d.Complete)
    (ds : List SystemDefinition)
    (comma comma' : Bool) :
    Definition.read (d.layout.lexemes comma ++ Layout.lexemes comma' (listLayout ds)) =
      some (.system d, Layout.lexemes comma' (listLayout ds)) := by
  refine Definition.read_layout readable complete ?_
  cases ds with
  | nil => exact ⟨nofun, nofun⟩
  | cons e es =>
      obtain ⟨comma'', h⟩ := lexemes_listLayout_cons e es comma'
      obtain ⟨t, ls, first, may⟩ := e.exists_first comma'
      rw [h, first]
      exact may

theorem readWithin_listLayout
    (readable : ∀ d ∈ ds, d.Readable)
    (complete : ∀ d ∈ ds, d.Complete)
    {fuel : Nat}
    (enough : ds.length < fuel)
    (comma : Bool) :
    readWithin fuel (Layout.lexemes comma (listLayout ds)) = some (ds.map .system, []) := by
  induction ds generalizing fuel comma with
  | nil =>
      obtain ⟨fuel, rfl⟩ : ∃ k, fuel = k + 1 := ⟨fuel - 1, by simp at enough; omega⟩
      rfl
  | cons d ds ih =>
      obtain ⟨fuel, rfl⟩ : ∃ k, fuel = k + 1 := ⟨fuel - 1, by simp at enough; omega⟩
      obtain ⟨comma', h⟩ := lexemes_listLayout_cons d ds comma
      obtain ⟨t, ls, first, -⟩ := d.exists_first comma
      have front := read_front (readable d List.mem_cons_self) (complete d List.mem_cons_self)
        ds comma comma'
      have rest := ih (fun e he => readable e (List.mem_cons_of_mem d he))
        (fun e he => complete e (List.mem_cons_of_mem d he)) (by simpa using enough) comma'
      have next : peek (Layout.lexemes comma (listLayout (d :: ds))) =
          some (some t, d.layout.lexemes comma ++ Layout.lexemes comma' (listLayout ds)) := by
        rw [h, first]
        rfl
      exact (bind_of_eq next _).trans ((bind_of_eq front _).trans (bind_of_eq rest _))

theorem systemDefinitions?_map_system
    (ds : List SystemDefinition) :
    systemDefinitions? (ds.map .system) = some ds := by
  induction ds with
  | nil => rfl
  | cons d ds ih => simp [systemDefinitions?, ih]

/-- **Definitions are read back**, if there are any: the text of definitions is parsed as
these definitions. -/
theorem systemDefinitions?_parse?_listText
    (readable : ∀ d ∈ ds, d.Readable)
    (complete : ∀ d ∈ ds, d.Complete)
    (nonempty : ds ≠ []) :
    (parse? (listText ds)).bind systemDefinitions? = some ds := by
  obtain ⟨d, ds, rfl⟩ := List.exists_cons_of_ne_nil nonempty
  obtain ⟨comma, h⟩ := lexemes_listLayout_cons d ds false
  have front := read_front (readable d List.mem_cons_self) (complete d List.mem_cons_self)
    ds false comma
  have enough : ds.length < (Layout.lexemes false (listLayout (d :: ds))).length + 1 := by
    have length := length_le_lexemes (d :: ds) false
    rw [List.length_cons] at length
    omega
  have rest := readWithin_listLayout (fun e he => readable e (List.mem_cons_of_mem d he))
    (fun e he => complete e (List.mem_cons_of_mem d he)) enough comma
  have all : read (Layout.lexemes false (listLayout (d :: ds))) =
      some ((d :: ds).map .system, []) := by
    rw [← h] at front
    exact (bind_of_eq front _).trans (bind_of_eq rest _)
  have parsed : parse? (listText (d :: ds)) = some ((d :: ds).map .system) := by
    rw [parse?, listText, Lexeme.scan_render (legible_listLayout (d :: ds))]
    exact all?_eq_some_iff.mpr all
  rw [parsed]
  exact systemDefinitions?_map_system (d :: ds)

theorem systemDefinitions?_parse?_nil :
    (parse? (listText [])).bind systemDefinitions? = none :=
  rfl

/-- **The text tells the definitions.** -/
theorem listText_inj
    {ds es : List SystemDefinition}
    (readable : ∀ d ∈ ds ++ es, d.Readable)
    (complete : ∀ d ∈ ds ++ es, d.Complete) :
    listText ds = listText es ↔ ds = es := by
  rw [List.forall_mem_append] at readable complete
  refine ⟨fun same => ?_, congrArg listText⟩
  have read : ∀ cs : List SystemDefinition, (∀ d ∈ cs, d.Readable) → (∀ d ∈ cs, d.Complete) →
      (parse? (listText cs)).bind systemDefinitions? = if cs = [] then none else some cs := by
    intro cs readable complete
    split
    · rename_i none
      rw [none, systemDefinitions?_parse?_nil]
    · rename_i nonempty
      exact systemDefinitions?_parse?_listText readable complete nonempty
  have found := read ds readable.1 complete.1
  rw [same, read es readable.2 complete.2] at found
  cases ds with
  | nil =>
      cases es with
      | nil => rfl
      | cons => cases found
  | cons =>
      cases es with
      | nil => cases found
      | cons => exact (Option.some.inj found).symm

end Document

end Supergraph
