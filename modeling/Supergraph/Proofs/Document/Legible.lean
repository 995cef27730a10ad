import Supergraph.Document.Writing
import Supergraph.Proofs.Text.Scanning

/-!
# Everything that is written is legible

Between any two words of a written definition there is a separator or a punctuator, and
block strings are written only where they can be (`legible_listLayout`).
-/

namespace Supergraph

namespace Layout

variable {behind : Bool} {l m : Layout} {level : Nat} {style : Style}

section Pieces

@[simp] theorem legible_nil :
    Legible behind [] :=
  trivial

@[simp] theorem legible_space :
    Legible behind (.space :: l) ↔ Legible false l := by
  simp [Legible, Piece.mayContinue, Piece.Writable, Piece.isOpen]

@[simp] theorem legible_comma :
    Legible behind (.comma :: l) ↔ Legible false l := by
  simp [Legible, Piece.mayContinue, Piece.Writable, Piece.isOpen]

@[simp] theorem legible_newline :
    Legible behind (.newline level :: l) ↔ Legible false l := by
  simp [Legible, Piece.mayContinue, Piece.Writable, Piece.isOpen]

@[simp] theorem legible_punct_append
    {p : Punctuator} :
    Legible behind (punct p ++ l) ↔ (behind = true → p ≠ .spread) ∧ Legible false l := by
  simp [punct, Legible, Piece.mayContinue, Piece.Writable, Piece.isOpen]

@[simp] theorem legible_punct
    {p : Punctuator} :
    Legible behind (punct p) ↔ (behind = true → p ≠ .spread) := by
  simp [punct, Legible, Piece.mayContinue, Piece.Writable]

@[simp] theorem legible_name
    (n : Name) :
    Legible false (name n) := by
  simp [name, Legible, Piece.Writable]

theorem legible_of_behind
    (h : Legible true l) :
    Legible behind l := by
  cases l with
  | nil => trivial
  | cons piece l => exact ⟨fun _ => h.1 rfl, h.2⟩

/-- What may stand behind a word may stand behind anything. -/
theorem legible_append
    (hl : Legible behind l)
    (hm : Legible true m) :
    Legible behind (l ++ m) := by
  induction l generalizing behind with
  | nil => exact legible_of_behind hm
  | cons piece l ih => exact ⟨hl.1, hl.2.1, ih hl.2.2⟩

theorem legible_string
    (style : Style)
    (s : String) :
    Legible false (string style s) := by
  have quoted : Legible false [.token (.string s)] := ⟨nofun, trivial, trivial⟩
  cases style with
  | oneLine => exact quoted
  | broken level =>
      simp only [string]
      split
      · rename_i block
        exact ⟨nofun, (Bool.and_eq_true_iff.mp block).2, trivial⟩
      · exact quoted

theorem legible_doc
    (level : Nat)
    (d : Option String)
    (h : Legible false l) :
    Legible false (doc level d ++ l) := by
  cases d with
  | none => exact h
  | some s =>
      have rest : Legible true (.newline level :: l) := legible_newline.mpr h
      simp only [doc]
      split
      · rename_i block
        exact ⟨nofun, block, rest⟩
      · exact ⟨nofun, trivial, rest⟩

end Pieces

section Lists

variable {ls : List Layout}

theorem legible_itemized
    (level : Nat)
    (h : ∀ l ∈ ls, Legible false l)
    (hm : Legible true m) :
    Legible true (itemized level ls ++ m) := by
  induction ls with
  | nil => exact hm
  | cons l ls ih =>
      have rest := ih fun l' hl' => h l' (List.mem_cons_of_mem l hl')
      have comma : Legible true (.comma :: (itemized level ls ++ m)) :=
        legible_comma.mpr (legible_of_behind rest)
      have first := legible_append (h l List.mem_cons_self) comma
      simpa [itemized] using first

theorem legible_stacked
    (level : Nat)
    (h : ∀ l ∈ ls, Legible false l)
    (hm : Legible true m) :
    Legible true (stacked level ls ++ m) := by
  induction ls with
  | nil => exact hm
  | cons l ls ih =>
      have rest := ih fun l' hl' => h l' (List.mem_cons_of_mem l hl')
      have first := legible_append (h l List.mem_cons_self) rest
      simpa [stacked] using first

theorem legible_separated
    {sep : Layout}
    (apart : ∀ l, Legible false l → Legible true (sep ++ l))
    (h : ∀ l ∈ ls, Legible false l) :
    Legible false (separated sep ls) := by
  induction ls with
  | nil => trivial
  | cons l ls ih =>
      have hl := h l List.mem_cons_self
      have rest := ih fun l' hl' => h l' (List.mem_cons_of_mem l hl')
      cases ls with
      | nil => exact hl
      | cons l' ls =>
          show Legible false (l ++ sep ++ separated sep (l' :: ls))
          rw [List.append_assoc]
          exact legible_append hl (apart _ rest)

theorem legible_listed
    (h : ∀ l ∈ ls, Legible false l) :
    Legible false (listed ls) :=
  legible_separated (by simp) h

theorem legible_bracketed
    (style : Style)
    {opening close : Punctuator}
    (hopening : opening ≠ .spread)
    (hclose : close ≠ .spread)
    (h : ∀ l ∈ ls, Legible false l) :
    Legible true (bracketed style opening close ls) := by
  have closed : Legible true (punct close) := by simp [hclose]
  cases ls with
  | nil => cases style <;> simp [bracketed, hopening]
  | cons l ls =>
      cases style with
      | oneLine =>
          simp only [bracketed, List.append_assoc, legible_punct_append]
          exact ⟨fun _ => hopening, legible_append (legible_listed h) closed⟩
      | broken level =>
          simp only [bracketed, List.append_assoc, legible_punct_append]
          exact ⟨fun _ => hopening,
            legible_of_behind (legible_itemized (level + 1) h (by simp))⟩

end Lists

end Layout

open Layout

namespace Keyword

@[simp] theorem legible_layout
    (k : Keyword) :
    k.layout.Legible false :=
  legible_name k.name

end Keyword

namespace Value

mutual

theorem legible_layout
    (style : Style) :
    (v : Value) → (v.layout style).Legible false
  | .null => Keyword.legible_layout _
  | .boolean true => Keyword.legible_layout _
  | .boolean false => Keyword.legible_layout _
  | .int _ => ⟨nofun, trivial, trivial⟩
  | .float _ => ⟨nofun, trivial, trivial⟩
  | .string s => legible_string style s
  | .enum n => legible_name n
  | .var n => by simp [layout]
  | .list items => legible_of_behind (legible_bracketed style (by decide) (by decide)
      (legible_itemLayouts style.inner items))
  | .object fields => legible_of_behind (legible_bracketed style (by decide) (by decide)
      (legible_fieldLayouts style.inner fields))

theorem legible_itemLayouts
    (style : Style) :
    (vs : List Value) → ∀ l ∈ itemLayouts style vs, l.Legible false
  | [] => by simp [itemLayouts]
  | v :: vs => List.forall_mem_cons.mpr ⟨legible_layout style v, legible_itemLayouts style vs⟩

theorem legible_fieldLayouts
    (style : Style) :
    (fs : List (Name × Value)) → ∀ l ∈ fieldLayouts style fs, l.Legible false
  | [] => by simp [fieldLayouts]
  | (n, v) :: fs => by
      refine List.forall_mem_cons.mpr ⟨?_, legible_fieldLayouts style fs⟩
      rw [List.append_assoc]
      refine legible_append (legible_name n) ?_
      simp [legible_layout style v]

end

end Value

theorem TypeRef.legible_layout
    (t : TypeRef) :
    t.layout.Legible false := by
  have bang : ∀ b, (bangLayout b).Legible true := by
    intro b
    cases b <;> simp [bangLayout]
  induction t with
  | named n b => exact legible_append (legible_name n) (bang b)
  | list t b ih =>
      simp only [layout, List.append_assoc, legible_punct_append]
      refine ⟨nofun, legible_append ih ?_⟩
      simp [legible_of_behind (bang b)]

section Applications

theorem Argument.legible_layout
    (a : Argument) :
    a.layout.Legible false := by
  simp only [layout, List.append_assoc]
  refine legible_append (legible_name a.name) ?_
  simp [a.value.legible_layout .oneLine]

theorem Argument.legible_listLayout
    (as : List Argument) :
    (listLayout as).Legible true := by
  cases as with
  | nil => trivial
  | cons a as =>
      have listed : (listed ((a :: as).map layout)).Legible false :=
        legible_listed (by simp [Argument.legible_layout])
      simp only [listLayout, List.append_assoc, legible_punct_append]
      exact ⟨by decide, legible_append listed (by simp)⟩

theorem Directive.legible_layout
    (d : Directive) :
    d.layout.Legible true := by
  simp only [layout, List.append_assoc, legible_punct_append]
  exact ⟨by decide, legible_append (legible_name d.name) (Argument.legible_listLayout d.arguments)⟩

theorem Directive.legible_listLayout
    (ds : List Directive) :
    (listLayout ds).Legible true := by
  induction ds with
  | nil => trivial
  | cons d ds ih =>
      have first : (d.layout ++ listLayout ds).Legible true := legible_append d.legible_layout ih
      simpa [listLayout] using legible_of_behind first

end Applications

section Members

theorem InputValue.legible_bareLayout
    (style : Style)
    (v : InputValue) :
    (v.bareLayout style).Legible false := by
  have default : (defaultLayout style v.default ++ Directive.listLayout v.directives).Legible true := by
    refine legible_append ?_ (Directive.legible_listLayout v.directives)
    cases v.default with
    | none => trivial
    | some d => simp [defaultLayout, d.legible_layout style]
  simp only [bareLayout, List.append_assoc]
  refine legible_append (legible_name v.name) ?_
  simp [legible_append v.type.legible_layout default]

theorem InputValue.legible_layout
    (level : Nat)
    (v : InputValue) :
    (v.layout level).Legible false :=
  legible_doc level v.description (v.legible_bareLayout (.broken level))

theorem InputValue.legible_listLayout
    (level : Nat)
    (vs : List InputValue) :
    (listLayout level vs).Legible true := by
  cases vs with
  | nil => trivial
  | cons v vs =>
      simp only [listLayout]
      split
      · have items : (itemized (level + 1) ((v :: vs).map (layout (level + 1)))
            ++ .newline level :: punct .rightParen).Legible true :=
          legible_itemized (level + 1) (by simp [InputValue.legible_layout]) (by simp)
        simpa using legible_of_behind items
      · have items : (listed ((v :: vs).map (bareLayout .oneLine))).Legible false :=
          legible_listed (by simp [InputValue.legible_bareLayout])
        simp only [List.append_assoc, legible_punct_append]
        exact ⟨by decide, legible_append items (by simp)⟩

theorem Field.legible_layout
    (level : Nat)
    (f : Field) :
    (f.layout level).Legible false := by
  simp only [layout, List.append_assoc]
  refine legible_doc level f.description (legible_append (legible_name f.name)
    (legible_append (InputValue.legible_listLayout level f.arguments) ?_))
  simp [legible_append f.type.legible_layout (Directive.legible_listLayout f.directives)]

theorem EnumValue.legible_layout
    (level : Nat)
    (v : EnumValue) :
    (v.layout level).Legible false := by
  rw [layout, List.append_assoc]
  exact legible_doc level v.description
    (legible_append (legible_name v.name) (Directive.legible_listLayout v.directives))

theorem legible_braced
    {ls : List Layout}
    (h : ∀ l ∈ ls, l.Legible false) :
    (braced ls).Legible true := by
  have members : (stacked 1 ls ++ .newline 0 :: punct .rightBrace).Legible true :=
    legible_stacked 1 h (by simp)
  simpa [braced] using legible_of_behind members

theorem legible_bracedUnlessEmpty
    {ls : List Layout}
    (h : ∀ l ∈ ls, l.Legible false) :
    (bracedUnlessEmpty ls).Legible true := by
  unfold bracedUnlessEmpty
  split
  · trivial
  · exact legible_braced h

end Members

section Definitions

/-- Names with a punctuator between any two. -/
theorem legible_separated_names
    {p : Punctuator}
    (h : p ≠ .spread)
    {ls : List Layout}
    (names : ∀ l ∈ ls, l.Legible false) :
    (separated (.space :: punct p ++ [.space]) ls).Legible false :=
  legible_separated (by simp [h]) names

theorem TypeContents.legible_headLayout
    (c : TypeContents) :
    c.headLayout.Legible true := by
  have interfaces : ∀ ns, (interfacesLayout ns).Legible true := by
    intro ns
    cases ns with
    | nil => trivial
    | cons n ns =>
        have names := legible_separated_names (show Punctuator.ampersand ≠ .spread by decide)
          (show ∀ l ∈ (n :: ns).map Layout.name, l.Legible false by simp)
        have word : (Keyword.implements.layout ++ .space :: separated
            (.space :: punct .ampersand ++ [.space]) ((n :: ns).map Layout.name)).Legible false :=
          legible_append (Keyword.legible_layout _) (legible_space.mpr names)
        simpa [interfacesLayout] using word
  cases c <;> simp [headLayout, interfaces]

theorem TypeContents.legible_bodyLayout
    (c : TypeContents) :
    c.bodyLayout.Legible true := by
  cases c with
  | scalar => trivial
  | object interfaces fields =>
      exact legible_bracedUnlessEmpty (by simp [Field.legible_layout])
  | interface interfaces fields =>
      exact legible_bracedUnlessEmpty (by simp [Field.legible_layout])
  | union members =>
      cases members with
      | nil => trivial
      | cons n ns =>
          have names := legible_separated_names (show Punctuator.pipe ≠ .spread by decide)
            (show ∀ l ∈ (n :: ns).map Layout.name, l.Legible false by simp)
          simpa [bodyLayout, membersLayout] using names
  | enum values => exact legible_bracedUnlessEmpty (by simp [EnumValue.legible_layout])
  | inputObject fields => exact legible_bracedUnlessEmpty (by simp [InputValue.legible_layout])

theorem TypeText.legible_layout
    (t : TypeText) :
    t.layout.Legible false := by
  have rest : (t.contents.headLayout ++ (Directive.listLayout t.directives
      ++ t.contents.bodyLayout)).Legible true :=
    legible_append t.contents.legible_headLayout
      (legible_append (Directive.legible_listLayout t.directives) t.contents.legible_bodyLayout)
  simp only [layout, List.append_assoc]
  refine legible_append (Keyword.legible_layout _) ?_
  simp [legible_append (legible_name t.name) rest]

theorem SchemaText.legible_rootLayout
    (r : OperationKind × Name) :
    (rootLayout r).Legible false := by
  simp only [rootLayout, List.append_assoc]
  refine legible_append (Keyword.legible_layout _) ?_
  simp

theorem DirectiveDef.legible_layout
    (d : DirectiveDef) :
    d.layout.Legible false := by
  have locations : (separated (.space :: punct .pipe ++ [.space])
      (d.locations.map Location.layout)).Legible false :=
    legible_separated_names (by decide) (by simp [Location.layout])
  have repeatable : Legible true (if d.repeatable then .space :: Keyword.repeatable.layout else []) := by
    split <;> simp
  simp only [layout, List.append_assoc, List.cons_append]
  refine legible_doc 0 d.description (legible_append (Keyword.legible_layout .directive) ?_)
  rw [legible_space, legible_punct_append]
  refine ⟨nofun, legible_append (legible_name d.name)
    (legible_append (InputValue.legible_listLayout 0 d.arguments) (legible_append repeatable ?_))⟩
  rw [legible_space]
  exact legible_append (Keyword.legible_layout .on) (legible_space.mpr locations)

theorem SystemDefinition.legible_layout
    (d : SystemDefinition) :
    d.layout.Legible false := by
  have roots : ∀ t : SchemaText, ∀ l ∈ t.roots.map SchemaText.rootLayout, l.Legible false := by
    intro t l hl
    obtain ⟨r, -, rfl⟩ := List.mem_map.mp hl
    exact SchemaText.legible_rootLayout r
  cases d with
  | schema t =>
      simp only [layout, List.append_assoc]
      exact legible_doc 0 t.description (legible_append (Keyword.legible_layout .schema)
        (legible_append (Directive.legible_listLayout t.directives) (legible_braced (roots t))))
  | schemaExtension t =>
      simp only [layout, List.append_assoc, List.cons_append]
      refine legible_append (Keyword.legible_layout .extend) ?_
      rw [legible_space]
      exact legible_append (Keyword.legible_layout .schema)
        (legible_append (Directive.legible_listLayout t.directives)
          (legible_bracedUnlessEmpty (roots t)))
  | type t => exact legible_doc 0 t.description t.legible_layout
  | typeExtension t =>
      exact legible_append (Keyword.legible_layout .extend) (legible_space.mpr t.legible_layout)
  | directive d => exact d.legible_layout

/-- **Definitions are written legibly.** -/
theorem SystemDefinition.legible_listLayout
    (ds : List SystemDefinition) :
    (listLayout ds).Legible false := by
  cases ds with
  | nil => trivial
  | cons d ds =>
      have definitions : (separated [.newline 0, .newline 0] ((d :: ds).map layout)).Legible false :=
        legible_separated (by simp) (by simp [SystemDefinition.legible_layout])
      exact legible_append definitions (by simp)

end Definitions

end Supergraph
