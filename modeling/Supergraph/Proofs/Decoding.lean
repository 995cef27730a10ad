import Supergraph.Fusion.Application
import Supergraph.Proofs.Document.Selections
import Supergraph.Proofs.Vocabulary

/-!
# Lookups are decoded from their applications

What a lookup was written with can be read from its application: the subgraph, the
arguments in their order and the kind always, and the selections just if the text of each
is parsed as that selection (`Vocabulary.resolver_decodes`).  So applications are equal only
if they were written with the same.
-/

namespace Supergraph

open Reader

section Types

namespace TypeRef

/-- The reference with this text.  There are fewer lists around its name than tokens, so
their number is no limit. -/
def parse? (t : String) : Option TypeRef :=
  (Lexeme.scan t).bind fun ls => (readWithin ls.length).all? ls

theorem length_wrapping_le
    (t : TypeRef) :
    t.wrapping.length ≤ t.layout.tokens.length := by
  induction t with
  | named n b => simp [wrapping, layout]
  | list t b ih =>
      simp only [wrapping, layout, Layout.tokens_append, Layout.tokens_punct, List.length_append,
        List.length_cons, List.length_nil]
      omega

/-- **The text of a reference is read back**, whatever its wrapping. -/
theorem parse?_text
    (t : TypeRef) :
    parse? t.text = some t := by
  have readable : t.ReadableWithin (t.layout.lexemes false).length := by
    rw [readableWithin_iff, Layout.length_lexemes]
    exact Nat.le_succ_of_le t.length_wrapping_le
  have read := reads_layoutWithin readable _ [] (t.layout.map_token_lexemes false) nofun
  rw [List.append_nil] at read
  rw [parse?, text, Lexeme.scan_render t.legible_layout]
  exact all?_eq_some_iff.mpr read

end TypeRef

end Types

section Decoding

theorem Directive.isSome_argument?_iff
    {d : Directive}
    {k : Name} :
    (d.argument? k).isSome ↔ k ∈ d.arguments.map Argument.name := by
  simp [argument?, lookup, key]

/-- The string in the field of an object. -/
def Value.stringIn? (k : Name) : Value → Option String
  | .object fields =>
      match (fields.find? (fun f => f.1 == k)).map Prod.snd with
      | some (.string s) => some s
      | _ => none
  | _ => none

/-- The argument of a lookup that a value describes by its name and its type. -/
def Parameter.ofValue? (v : Value) : Option Parameter := do
  let name ← Name.ofString? (← v.stringIn? ArgumentName.name)
  let type ← TypeRef.parse? (← v.stringIn? ArgumentName.type)
  return ⟨name, type⟩

/-- The arguments of a lookup that an application describes, in order; it has none if
nothing is said. -/
def Directive.parameters? (d : Directive) : Option (Table Parameter) :=
  match d.argument? ArgumentName.arguments with
  | none => some .empty
  | some (.list vs) => (vs.mapM Parameter.ofValue?).bind Table.ofList?
  | some _ => none

/-- The selections of a lookup that an application describes. -/
def Directive.selections? (d : Directive) : Option (List Selection) :=
  match d.argument? ArgumentName.select with
  | some (.string t) => Selection.parseSet? t
  | _ => none

theorem Parameter.ofValue?_parameterValue
    (p : Parameter) :
    ofValue? (Vocabulary.parameterValue p) = some p := by
  have name : (Vocabulary.parameterValue p).stringIn? ArgumentName.name = some p.name.text := rfl
  have type : (Vocabulary.parameterValue p).stringIn? ArgumentName.type = some p.type.text := rfl
  simp [ofValue?, name, type, Name.ofString?_text, TypeRef.parse?_text]

theorem Parameter.mapM_ofValue?
    (ps : List Parameter) :
    (ps.map Vocabulary.parameterValue).mapM ofValue? = some ps := by
  induction ps with
  | nil => rfl
  | cons p ps ih => simp [List.mapM_cons, ofValue?_parameterValue, ih]

end Decoding

namespace Vocabulary

variable {v : Vocabulary} {subgraphName : String} {selections : List Selection}
  {parameters : Table Parameter} {kind : ResolverKind}

section Arguments

theorem argument?_arguments :
    (v.resolverApplication subgraphName selections parameters kind).argument?
        ArgumentName.arguments =
      if parameters.items.isEmpty then none
      else some (.list (parameters.items.map parameterValue)) := by
  rw [Directive.argument?, resolverApplication, parameterArguments]
  cases parameters.items.isEmpty <;> cases kind <;> rfl

theorem argument?_kind :
    (v.resolverApplication subgraphName selections parameters kind).argument? ArgumentName.kind =
      if kind = .single then none else some (.enum kind.enumValue) := by
  rw [Directive.argument?, resolverApplication, parameterArguments]
  cases parameters.items.isEmpty <;> cases kind <;> rfl

end Arguments

section Decoding

theorem parameters?_resolverApplication :
    (v.resolverApplication subgraphName selections parameters kind).parameters? =
      some parameters := by
  have listed : Table.ofList? parameters.items = some parameters := dif_pos parameters.nodup
  rw [Directive.parameters?, argument?_arguments]
  cases empty : parameters.items.isEmpty with
  | true =>
      have none : parameters = .empty := Table.ext (List.isEmpty_iff.mp empty)
      rw [none]
      rfl
  | false =>
      show ((parameters.items.map parameterValue).mapM Parameter.ofValue?).bind Table.ofList? = _
      rw [Parameter.mapM_ofValue?, Option.bind_some, listed]

theorem resolverKindOf_resolverApplication :
    v.resolverKindOf (v.resolverApplication subgraphName selections parameters kind) = .ok kind := by
  have applied : (v.resolverApplication subgraphName selections parameters kind).name =
      v.directiveName .resolver := rfl
  rw [resolverKindOf, if_pos applied, argument?_kind]
  cases kind <;> rfl

/-- One at a time is the kind that is not written. -/
theorem kind_mem_names_iff :
    ArgumentName.kind ∈ (v.resolverApplication subgraphName selections parameters
        kind).arguments.map Argument.name ↔
      kind ≠ .single := by
  rw [← Directive.isSome_argument?_iff, argument?_kind]
  cases kind <;> simp

theorem selections?_resolverApplication_iff
    (nonempty : selections ≠ []) :
    (v.resolverApplication subgraphName selections parameters kind).selections? =
        some selections ↔
      ∀ s ∈ selections, Selection.parse? s.text = some s :=
  Selection.parseSet?_setText_iff nonempty

end Decoding

/-- **Lookups are decoded from their applications.**  The application gives back the subgraph,
the arguments in their order and the kind, which is written just if it is not one at a time.
It gives back the selections just if the text of each is parsed as that selection.  So
applications of selections that are parsed are equal only if all is equal that they were
written with. -/
theorem resolver_decodes
    (v : Vocabulary)
    (subgraphName : String)
    {selections : List Selection}
    (nonempty : selections ≠ [])
    (parameters : Table Parameter)
    (kind : ResolverKind) :
    let d := v.resolverApplication subgraphName selections parameters kind
    d.argument? ArgumentName.subgraph = some (.string subgraphName) ∧
      d.parameters? = some parameters ∧
      v.resolverKindOf d = .ok kind ∧
      (ArgumentName.kind ∈ d.arguments.map Argument.name ↔ kind ≠ .single) ∧
      (d.selections? = some selections ↔ ∀ s ∈ selections, Selection.parse? s.text = some s) ∧
      ∀ subgraphName' selections' parameters' kind', selections' ≠ [] →
        (∀ s ∈ selections ++ selections', Selection.parse? s.text = some s) →
          v.resolverApplication subgraphName' selections' parameters' kind' = d →
            subgraphName' = subgraphName ∧ selections' = selections ∧
              parameters' = parameters ∧ kind' = kind := by
  refine ⟨rfl, parameters?_resolverApplication, resolverKindOf_resolverApplication,
    kind_mem_names_iff, selections?_resolverApplication_iff nonempty, ?_⟩
  intro subgraphName' selections' parameters' kind' nonempty' parsed same
  obtain ⟨parsed, parsed'⟩ := List.forall_mem_append.mp parsed
  have subgraphs : some (Value.string subgraphName') = some (.string subgraphName) :=
    congrArg (Directive.argument? · ArgumentName.subgraph) same
  have lists := congrArg Directive.selections? same
  rw [(selections?_resolverApplication_iff nonempty).mpr parsed,
    (selections?_resolverApplication_iff nonempty').mpr parsed'] at lists
  have tables := congrArg Directive.parameters? same
  rw [parameters?_resolverApplication, parameters?_resolverApplication] at tables
  have kinds := congrArg v.resolverKindOf same
  rw [resolverKindOf_resolverApplication, resolverKindOf_resolverApplication] at kinds
  exact ⟨Value.string.inj (Option.some.inj subgraphs), Option.some.inj lists,
    Option.some.inj tables, Except.ok.inj kinds⟩

/-- Each kind of selection next to another one: a labelled field with an argument, an
application and a selection, a spread, and inline fragments with a condition and without.
The word `on` is the name of a field, and a brace stands in a string. -/
def mixedSelections : List Selection :=
  [ .field (some ⟨"latest", by decide⟩) ⟨"posts", by decide⟩
      [⟨⟨"tags", by decide⟩, .list [.var ⟨"tag", by decide⟩, .string "\x7d"]⟩]
      [⟨⟨"live", by decide⟩, []⟩]
      [.field none ⟨"title", by decide⟩ [] [] []],
    .spread ⟨"Author", by decide⟩ [],
    .inline (some ⟨"Post", by decide⟩) [] [.field none Keyword.on.name [] [] []],
    .inline none [] [.spread ⟨"Tail", by decide⟩ [⟨⟨"slow", by decide⟩, []⟩]] ]

/-- Two arguments, the second of them required and a list of lists. -/
def nestedParameters : Table Parameter :=
  (Table.empty.put ⟨⟨"first", by decide⟩, .named BuiltIn.int false⟩).put
    ⟨⟨"grid", by decide⟩, .list (.list (.named BuiltIn.int true) false) true⟩

/-- The selections are parsed, so all that was written is decoded. -/
theorem resolver_decodes_mixed :
    mixedSelections ≠ [] ∧
      (underP.resolverApplication "s" mixedSelections nestedParameters .batch).parameters? =
        some nestedParameters ∧
      (underP.resolverApplication "s" mixedSelections nestedParameters .batch).selections? =
        some mixedSelections := by
  have nonempty : mixedSelections ≠ [] := List.cons_ne_nil _ _
  have parsed : ∀ s ∈ mixedSelections, Selection.parse? s.text = some s := by
    have value : ∀ n s, (Value.list [.var n, .string s]).ReadableWithin false 499 := fun n s =>
      List.forall_mem_cons.mpr ⟨rfl, List.forall_mem_singleton.mpr trivial⟩
    have bare : ∀ n, (⟨n, []⟩ : Directive).ReadableWithin false 499 := fun _ => nofun
    have field : ∀ n, Selection.SetReadableWithin 499 [.field none n [] [] []] := fun n =>
      ⟨nofun, List.forall_mem_singleton.mpr ⟨nofun, nofun, fun some => absurd rfl some⟩⟩
    have spread : ∀ n m, n ≠ Keyword.on.name →
        Selection.SetReadableWithin 499 [.spread n [⟨m, []⟩]] := fun n m other =>
      ⟨nofun, List.forall_mem_singleton.mpr ⟨other, List.forall_mem_singleton.mpr nofun⟩⟩
    simp only [Selection.parse?_text_iff, mixedSelections, List.forall_mem_cons]
    exact ⟨⟨List.forall_mem_singleton.mpr (value _ _), List.forall_mem_singleton.mpr (bare _),
      fun _ => field _⟩, ⟨by decide, nofun⟩, ⟨nofun, field _⟩, ⟨nofun, spread _ _ (by decide)⟩,
      nofun⟩
  obtain ⟨-, parameters, -, -, selections, -⟩ :=
    resolver_decodes underP "s" nonempty nestedParameters .batch
  exact ⟨nonempty, parameters, selections.mpr parsed⟩

end Vocabulary

end Supergraph
