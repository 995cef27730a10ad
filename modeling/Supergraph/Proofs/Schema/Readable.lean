import Supergraph.Fusion.Elision
import Supergraph.Proofs.Document.Rereading
import Supergraph.Proofs.Schema.Standard

/-!
# Schemas with a text that can be read

A schema is *readable* if all of its parts are.  What is parsed is readable, whatever is put
together from readable definitions is, and so is a schema that is settled, or of which members
are hidden.  The definitions that a schema is written as are complete, so that the text of a
readable schema is parsed as these definitions (`Schema.parse_text`), and texts are the same
only if these are (`Schema.text_inj`).
-/

namespace Supergraph

/-- The contents of the type can be read. -/
def TypeBody.Readable : TypeBody → Prop
  | .scalar => True
  | .object _ fields => ∀ f ∈ fields.items, f.item.Readable
  | .interface _ fields => ∀ f ∈ fields.items, f.item.Readable
  | .union _ => True
  | .enum values => ∀ v ∈ values.items, v.item.Readable
  | .inputObject fields => ∀ f ∈ fields.items, f.item.Readable

/-- The type can be read. -/
structure TypeDef.Readable (t : TypeDef) : Prop where
  applications : ∀ d ∈ t.applications, d.Readable
  body : t.body.Readable

/-- All parts of the schema can be read. -/
structure Schema.Readable (s : Schema) : Prop where
  applications : ∀ d ∈ s.definition.applications, d.Readable
  directives : ∀ d ∈ s.directives.items, d.Readable
  types : ∀ t ∈ s.types.items, t.Readable

section Written

theorem Sourced.forall_mem_fromOrigin
    {α : Type}
    {P : α → Prop}
    {xs : List (Sourced α)}
    (h : ∀ x ∈ xs, P x.item)
    (o : Origin) :
    ∀ a ∈ fromOrigin o xs, P a :=
  fun _ ha => h _ (mem_fromOrigin_iff.mp ha)

theorem Sourced.fromOrigin_ne_nil
    {α : Type}
    {xs : List (Sourced α)}
    {o : Origin}
    (h : o ∈ xs.map origin) :
    fromOrigin o xs ≠ [] := by
  obtain ⟨x, hx, rfl⟩ := List.mem_map.mp h
  exact List.ne_nil_of_mem (mem_fromOrigin_iff.mpr hx)

theorem TypeBody.Readable.fromOrigin
    {b : TypeBody}
    (h : b.Readable)
    (o : Origin) :
    (b.fromOrigin o).Readable := by
  cases b with
  | scalar => trivial
  | object is fs => exact Sourced.forall_mem_fromOrigin h o
  | interface is fs => exact Sourced.forall_mem_fromOrigin h o
  | union ms => trivial
  | enum vs => exact Sourced.forall_mem_fromOrigin h o
  | inputObject fs => exact Sourced.forall_mem_fromOrigin h o

theorem TypeBody.isEmpty_fromOrigin
    {b : TypeBody}
    {o : Origin}
    (h : o ∈ b.origins) :
    (b.fromOrigin o).isEmpty = false := by
  cases b with
  | scalar => cases h
  | object is fs =>
      rcases List.mem_append.mp h with h | h <;>
        simp [fromOrigin, TypeContents.isEmpty, Sourced.fromOrigin_ne_nil h]
  | interface is fs =>
      rcases List.mem_append.mp h with h | h <;>
        simp [fromOrigin, TypeContents.isEmpty, Sourced.fromOrigin_ne_nil h]
  | union ms => simpa [fromOrigin, TypeContents.isEmpty] using Sourced.fromOrigin_ne_nil h
  | enum vs => simpa [fromOrigin, TypeContents.isEmpty] using Sourced.fromOrigin_ne_nil h
  | inputObject fs => simpa [fromOrigin, TypeContents.isEmpty] using Sourced.fromOrigin_ne_nil h

theorem TypeDef.Readable.fromOrigin
    {t : TypeDef}
    (h : t.Readable)
    (o : Origin) :
    (t.fromOrigin o).Readable where
  directives := Sourced.forall_mem_fromOrigin (List.forall_mem_map.mp h.applications) o
  contents := h.body.fromOrigin o

/-- An extension that is written adds something. -/
theorem TypeDef.addsNothing_fromOrigin
    {t : TypeDef}
    {o : Origin}
    (h : o ∈ t.extensions) :
    (t.fromOrigin o).addsNothing = false := by
  obtain ⟨h, -⟩ := Origin.mem_extensions_iff.mp h
  rcases List.mem_append.mp h with h | h
  · simp [TypeText.addsNothing, fromOrigin, Sourced.fromOrigin_ne_nil h]
  · simp [TypeText.addsNothing, fromOrigin, TypeBody.isEmpty_fromOrigin h]

namespace SchemaDef

variable {d : SchemaDef} {o : Origin}

theorem rootsFrom_ne_nil
    (h : o ∈ d.roots.map (fun r => r.2.origin)) :
    d.rootsFrom o ≠ [] := by
  obtain ⟨r, hr, rfl⟩ := List.mem_map.mp h
  exact List.ne_nil_of_mem (List.mem_filterMap.mpr ⟨r, hr, if_pos rfl⟩)

theorem adds_fromOrigin
    (h : o ∈ d.extensions) :
    ((d.fromOrigin o).directives.isEmpty && (d.fromOrigin o).roots.isEmpty) = false := by
  obtain ⟨h, -⟩ := Origin.mem_extensions_iff.mp h
  rcases List.mem_append.mp h with h | h
  · simp [fromOrigin, Sourced.fromOrigin_ne_nil h]
  · simp [fromOrigin, rootsFrom_ne_nil h]

end SchemaDef

namespace Schema

variable {s : Schema}

/-- Whatever holds of the definition, the extensions, the directives and the types that are
written holds of all that is written. -/
theorem forall_mem_toDefinitions
    {P : SystemDefinition → Prop}
    (definition : s.definition.isImplicit s.types = false →
      P (.schema (s.definition.fromOrigin .definition)))
    (extensions : ∀ o ∈ s.definition.extensions, P (.schemaExtension (s.definition.fromOrigin o)))
    (directives : ∀ d ∈ s.directives.items, d.builtIn = false → P (.directive d))
    (types : ∀ t ∈ s.types.items, P (.type (t.fromOrigin .definition)))
    (typeExtensions : ∀ t ∈ s.types.items, ∀ o ∈ t.extensions, P (.typeExtension (t.fromOrigin o))) :
    ∀ d ∈ s.toDefinitions, P d := by
  intro d hd
  rcases List.mem_append.mp hd with hd | hd
  · rcases List.mem_append.mp hd with hd | hd
    · rcases List.mem_append.mp hd with hd | hd
      · split at hd
        · cases hd
        · rename_i written
          rw [List.mem_singleton.mp hd]
          exact definition (by simpa using written)
      · obtain ⟨o, ho, rfl⟩ := List.mem_map.mp hd
        exact extensions o ho
    · obtain ⟨e, he, rfl⟩ := List.mem_map.mp hd
      obtain ⟨he, own⟩ := List.mem_filter.mp he
      exact directives e he (by simpa using own)
  · obtain ⟨t, ht, hd⟩ := List.mem_flatMap.mp hd
    rcases List.mem_append.mp hd with hd | hd
    · split at hd
      · cases hd
      · rw [List.mem_singleton.mp hd]
        exact types t ht
    · obtain ⟨o, ho, rfl⟩ := List.mem_map.mp hd
      exact typeExtensions t ht o ho

/-- Nothing is lost where a schema is written. -/
theorem complete_toDefinitions
    (s : Schema) :
    ∀ d ∈ s.toDefinitions, d.Complete := by
  have undescribed : ∀ {os : List Origin} {o : Origin} {d : Option String},
      o ∈ Origin.extensions os → (if o = .definition then d else none) = none :=
    fun ho => if_neg (Origin.mem_extensions_iff.mp ho).2
  refine forall_mem_toDefinitions ?_ ?_ ?_ ?_ ?_
  · intro written rootless
    rw [SchemaDef.isImplicit, show s.definition.rootsFrom .definition = [] from rootless] at written
    cases written
  · exact fun o ho => ⟨undescribed ho, SchemaDef.adds_fromOrigin ho⟩
  · exact fun d _ own => own
  · exact fun _ _ => trivial
  · exact fun t _ o ho => ⟨undescribed ho, TypeDef.addsNothing_fromOrigin ho⟩

theorem Readable.toDefinitions
    (h : s.Readable) :
    ∀ d ∈ s.toDefinitions, d.Readable := by
  have applications := List.forall_mem_map.mp h.applications
  exact forall_mem_toDefinitions (fun _ => Sourced.forall_mem_fromOrigin applications .definition)
    (fun o _ => Sourced.forall_mem_fromOrigin applications o)
    (fun d hd own => ⟨h.directives d hd, own⟩)
    (fun t ht => (h.types t ht).fromOrigin .definition)
    (fun t ht o _ => (h.types t ht).fromOrigin o)

/-- **The text of a readable schema is parsed as what it was written from**, if anything is
written. -/
theorem parse_text
    (h : s.Readable)
    (nonempty : s.toDefinitions ≠ []) :
    parse s.text = ofDefinitions s.toDefinitions := by
  obtain ⟨doc, hdoc, hds⟩ := Option.bind_eq_some_iff.mp
    (Document.systemDefinitions?_parse?_listText h.toDefinitions s.complete_toDefinitions nonempty)
  unfold parse
  rw [text, hdoc]
  simp only [hds]

/-- Readable schemas have the same text just if they are written as the same definitions. -/
theorem text_inj
    {s' : Schema}
    (h : s.Readable)
    (h' : s'.Readable) :
    s.text = s'.text ↔ s.toDefinitions = s'.toDefinitions :=
  Document.listText_inj (List.forall_mem_append.mpr ⟨h.toDefinitions, h'.toDefinitions⟩)
    (List.forall_mem_append.mpr ⟨s.complete_toDefinitions, s'.complete_toDefinitions⟩)

end Schema

end Written

section Assembled

theorem Sourced.forall_mem_append_allFrom
    {α : Type}
    [Keyed α]
    {P : α → Prop}
    {t u : Table (Sourced α)}
    {o : Origin}
    {xs : List α}
    (added : t.append? (allFrom o xs) = some u)
    (ht : ∀ x ∈ t.items, P x.item)
    (hxs : ∀ a ∈ xs, P a) :
    ∀ x ∈ u.items, P x.item := by
  rw [Table.DrawnFrom.items_append? added, List.forall_mem_append]
  exact ⟨ht, List.forall_mem_map.mpr hxs⟩

namespace TypeBody

variable {b b' : TypeBody}

theorem readable_ofKind
    (kind : TypeKind) :
    (ofKind kind).Readable := by
  cases kind <;> first | trivial | exact nofun

theorem Readable.add
    (h : b.Readable)
    {contents : TypeContents}
    (hc : contents.Readable)
    {o : Origin}
    (added : b.add o contents = some b') :
    b'.Readable := by
  cases b with
  | scalar =>
      cases contents with
      | scalar => cases added; trivial
      | _ => cases added
  | object is fs =>
      cases contents with
      | object is' fs' =>
          obtain ⟨_, -, added⟩ := Option.bind_eq_some_iff.mp added
          obtain ⟨_, hfs, added⟩ := Option.bind_eq_some_iff.mp added
          cases added
          exact Sourced.forall_mem_append_allFrom hfs h hc
      | _ => cases added
  | interface is fs =>
      cases contents with
      | interface is' fs' =>
          obtain ⟨_, -, added⟩ := Option.bind_eq_some_iff.mp added
          obtain ⟨_, hfs, added⟩ := Option.bind_eq_some_iff.mp added
          cases added
          exact Sourced.forall_mem_append_allFrom hfs h hc
      | _ => cases added
  | union ms =>
      cases contents with
      | union ms' =>
          obtain ⟨_, -, added⟩ := Option.bind_eq_some_iff.mp added
          cases added
          trivial
      | _ => cases added
  | enum vs =>
      cases contents with
      | enum vs' =>
          obtain ⟨_, hvs, added⟩ := Option.bind_eq_some_iff.mp added
          cases added
          exact Sourced.forall_mem_append_allFrom hvs h hc
      | _ => cases added
  | inputObject fs =>
      cases contents with
      | inputObject fs' =>
          obtain ⟨_, hfs, added⟩ := Option.bind_eq_some_iff.mp added
          cases added
          exact Sourced.forall_mem_append_allFrom hfs h hc
      | _ => cases added

end TypeBody

namespace TypeDef

variable {t u : TypeDef}

theorem Readable.add
    (h : t.Readable)
    {text : TypeText}
    (ht : text.Readable)
    {o : Origin}
    (added : t.add o text = .ok u) :
    u.Readable := by
  obtain ⟨body, hbody, rfl⟩ := add_eq_ok added
  refine ⟨?_, h.body.add ht.contents hbody⟩
  rw [TypeDef.applications, List.map_append, Sourced.map_item_allFrom, List.forall_mem_append]
  exact ⟨h.applications, ht.directives⟩

theorem Readable.extendAll
    (h : t.Readable)
    {es : List TypeText}
    (hes : ∀ e ∈ es, e.Readable)
    {index : Nat}
    (extended : t.extendAll index es = .ok u) :
    u.Readable := by
  induction es generalizing t index with
  | nil =>
      cases extended
      exact h
  | cons e es ih =>
      cases added : t.add (.extension index) e with
      | error err =>
          rw [TypeDef.extendAll, added] at extended
          cases extended
      | ok t₁ =>
          rw [TypeDef.extendAll, added] at extended
          exact ih (h.add (hes e List.mem_cons_self) added)
            (fun d hd => hes d (List.mem_cons_of_mem e hd)) extended

theorem readable_ofText
    {text : TypeText}
    (ht : text.Readable)
    (read : ofText text = .ok u) :
    u.Readable :=
  Readable.add ⟨by simp [TypeDef.applications], TypeBody.readable_ofKind _⟩ ht read

end TypeDef

namespace SystemDefinition

variable {ds : List SystemDefinition} {n : Name} {t e : TypeText}

theorem mem_of_mem_extensionsOf
    (h : e ∈ extensionsOf n ds) :
    .typeExtension e ∈ ds := by
  obtain ⟨d, hd, found⟩ := List.mem_filterMap.mp (List.mem_filter.mp h).1
  cases d with
  | typeExtension t => cases found; exact hd
  | _ => cases found

theorem mem_of_mem_extensionsAround
    (h : e ∈ extensionsAround t ds) :
    .typeExtension e ∈ ds := by
  rcases List.mem_append.mp h with h | h
  · exact (List.takeWhile_sublist _).subset (mem_of_mem_extensionsOf (List.mem_filter.mp h).1)
  · exact (List.dropWhile_sublist _).subset (mem_of_mem_extensionsOf h)

theorem mem_of_mem_types
    (h : t ∈ types ds) :
    .type t ∈ ds := by
  obtain ⟨d, hd, found⟩ := List.mem_filterMap.mp h
  cases d with
  | type t => cases found; exact hd
  | _ => cases found

theorem mem_of_mem_directives
    {d : DirectiveDef}
    (h : d ∈ directives ds) :
    .directive d ∈ ds := by
  obtain ⟨d, hd, found⟩ := List.mem_filterMap.mp h
  cases d with
  | directive d => cases found; exact hd
  | _ => cases found

theorem readable_of_mem_schemas
    (readable : ∀ d ∈ ds, d.Readable)
    {text : SchemaText}
    (h : text ∈ schemas ds ++ schemaExtensions ds) :
    text.Readable := by
  rcases List.mem_append.mp h with h | h
  all_goals
    obtain ⟨d, hd, found⟩ := List.mem_filterMap.mp h
    cases d with
    | schema t => cases found <;> exact readable _ hd
    | schemaExtension t => cases found <;> exact readable _ hd
    | _ => cases found

end SystemDefinition

namespace BuiltIn

/-- Without a default or directives only the type counts. -/
theorem readable_inputValue
    (d : Option String)
    (n : Name)
    {t : TypeRef}
    (h : t.Readable) :
    (⟨d, n, t, none, []⟩ : InputValue).Readable :=
  ⟨h, by simp, by simp⟩

theorem readable_field
    (n : Name)
    {t : TypeRef}
    (h : t.Readable) :
    (field n t).item.Readable :=
  ⟨List.forall_mem_nil _, h, List.forall_mem_nil _⟩

theorem readable_filteredField
    (n : Name)
    {t : TypeRef}
    (h : t.Readable) :
    (filteredField n t).item.Readable := by
  refine ⟨List.forall_mem_singleton.mpr ⟨TypeRef.readable_named _ _, ?_, List.forall_mem_nil _⟩,
    h, List.forall_mem_nil _⟩
  simp [includeDeprecated]

/-- A built-in type has no directives. -/
theorem readable_typeDef
    (n : Name)
    {b : TypeBody}
    (h : b.Readable) :
    (typeDef n b).Readable :=
  ⟨List.forall_mem_nil _, h⟩

theorem readable_value
    {n : Name}
    (h : EnumValue.isReservedWord n = false) :
    (value n).item.Readable :=
  ⟨h, List.forall_mem_nil _⟩

theorem readable_types :
    ∀ t ∈ types.items, t.Readable := by
  have scalars : ∀ t ∈ scalarNames.map scalar, t.Readable :=
    List.forall_mem_map.mpr fun n _ => readable_typeDef n trivial
  refine List.forall_mem_append.mpr ⟨?_, scalars⟩
  simp only [introspectionTypes, List.forall_mem_cons]
  refine ⟨?_, ?_, ?kinds, ?_, ?_, ?_, ?_, ?locations, List.forall_mem_nil _⟩
  case kinds =>
    refine readable_typeDef _ ?_
    simp only [TypeBody.Readable, List.forall_mem_cons]
    and_intros
    all_goals first
      | exact readable_value (by decide)
      | exact List.forall_mem_nil _
  case locations =>
    refine readable_typeDef _ (List.forall_mem_map.mpr fun l _ => readable_value ?_)
    cases l <;> decide
  all_goals
    refine readable_typeDef _ ?_
    simp [TypeBody.Readable, readable_field, readable_filteredField, nullable, required,
      listOf, requiredListOf]

theorem readable_directives :
    ∀ d ∈ directives.items, d.Readable := by
  simp only [directives, List.forall_mem_cons]
  refine ⟨⟨?_, List.cons_ne_nil _ _⟩, ⟨?_, List.cons_ne_nil _ _⟩, ⟨?_, List.cons_ne_nil _ _⟩,
    ⟨?_, List.cons_ne_nil _ _⟩, List.forall_mem_nil _⟩
  · exact List.forall_mem_singleton.mpr (readable_inputValue _ _ (TypeRef.readable_named _ _))
  · exact List.forall_mem_singleton.mpr (readable_inputValue _ _ (TypeRef.readable_named _ _))
  · exact List.forall_mem_singleton.mpr
      ⟨TypeRef.readable_named _ _, by simp, List.forall_mem_nil _⟩
  · exact List.forall_mem_singleton.mpr (readable_inputValue _ _ (TypeRef.readable_named _ _))

end BuiltIn

namespace Schema

variable {s : Schema} {ds : List SystemDefinition}

theorem readable_of_addDirectives
    {t t' : Table DirectiveDef}
    {es : List DirectiveDef}
    (added : addDirectives t es = .ok t')
    (ht : ∀ d ∈ t.items, d.Readable)
    (hes : ∀ d ∈ es, d.Readable) :
    ∀ d ∈ t'.items, d.Readable := by
  induction es generalizing t with
  | nil =>
      cases added
      exact ht
  | cons e es ih =>
      have put : ∀ d ∈ (t.put e).items, d.Readable := by
        intro d hd
        rcases Table.mem_put_iff.mp hd with rfl | ⟨hd, -⟩
        · exact hes _ List.mem_cons_self
        · exact ht d hd
      have rest := fun added => ih (t := t.put e) added put fun d hd => hes d (List.mem_cons_of_mem e hd)
      unfold addDirectives at added
      split at added
      · split at added
        · exact rest added
        · cases added
      · exact rest added

theorem readable_of_assembleType
    (readable : ∀ d ∈ ds, d.Readable)
    {text : TypeText}
    (ht : text.Readable)
    {t : TypeDef}
    (h : assembleType ds text = .ok t) :
    t.Readable := by
  unfold assembleType at h
  cases started : TypeDef.ofText text with
  | error e => rw [started] at h; cases h
  | ok u =>
      rw [started] at h
      exact (TypeDef.readable_ofText ht started).extendAll (fun e he =>
        readable _ (SystemDefinition.mem_of_mem_extensionsAround he)) h

/-- What is put together from readable definitions is readable. -/
theorem readable_of_ofDefinitions
    (readable : ∀ d ∈ ds, d.Readable)
    (h : ofDefinitions ds = .ok s) :
    s.Readable := by
  obtain ⟨directives, types, definition, added, assembled, hdef, rfl⟩ := ofDefinitions_eq_ok_iff.mp h
  obtain ⟨bs, ts, builtIn, declared, items⟩ := assembleTypes_eq_ok assembled
  constructor
  · intro a ha
    obtain ⟨text, htext, ha⟩ := (mem_applications_assembleDefinition hdef).mp ha
    exact SystemDefinition.readable_of_mem_schemas readable htext a ha
  · exact readable_of_addDirectives added BuiltIn.readable_directives fun d hd =>
      (readable _ (SystemDefinition.mem_of_mem_directives hd)).1
  · show ∀ t ∈ types.items, t.Readable
    rw [items, List.forall_mem_append]
    constructor
    · intro t ht
      obtain ⟨b, hb, hbt⟩ := exists_of_mem_forall₂ (mapM_eq_ok_iff.mp builtIn) ht
      exact (BuiltIn.readable_types b hb).extendAll (fun e he =>
        readable _ (SystemDefinition.mem_of_mem_extensionsOf he)) hbt
    · intro t ht
      obtain ⟨text, htext, hassembled⟩ := exists_of_mem_forall₂ (mapM_eq_ok_iff.mp declared) ht
      exact readable_of_assembleType readable
        (readable _ (SystemDefinition.mem_of_mem_types htext)) hassembled

/-- What is parsed is put together from readable definitions. -/
theorem exists_ofDefinitions_of_parse
    {sdl : String}
    (h : parse sdl = .ok s) :
    ∃ ds, ofDefinitions ds = .ok s ∧ ∀ d ∈ ds, d.Readable := by
  unfold parse at h
  split at h
  · cases h
  · rename_i doc parsed
    split at h
    · cases h
    · rename_i ds found
      exact ⟨ds, h,
        Document.readable_of_systemDefinitions? found (Document.readable_of_parse? parsed)⟩

/-- **What is parsed is readable.** -/
theorem readable_of_parse
    {sdl : String}
    (h : parse sdl = .ok s) :
    s.Readable := by
  obtain ⟨ds, made, readable⟩ := exists_ofDefinitions_of_parse h
  exact readable_of_ofDefinitions readable made

theorem Readable.settle
    (h : s.Readable) :
    s.settle.Readable := by
  refine ⟨h.applications, h.directives, fun t ht => ?_⟩
  rcases mem_of_mem_settle ht with ⟨n, -, rfl⟩ | kept
  · exact ⟨nofun, trivial⟩
  · exact h.types t kept

end Schema

end Assembled

section Elided

variable {hidden : Hidden}

theorem InputValue.Readable.elide
    {v : InputValue}
    (h : v.Readable) :
    (v.elide hidden).Readable :=
  ⟨h.type, h.default, fun d hd => h.directives d (List.mem_filter.mp hd).1⟩

theorem Field.Readable.elide
    {f : Field}
    (h : f.Readable) :
    (f.elide hidden).Readable :=
  ⟨List.forall_mem_map.mpr fun a ha => (h.arguments a ha).elide, h.type,
    fun d hd => h.directives d (List.mem_filter.mp hd).1⟩

theorem EnumValue.Readable.elide
    {v : EnumValue}
    (h : v.Readable) :
    (v.elide hidden).Readable :=
  ⟨h.name, fun d hd => h.directives d (List.mem_filter.mp hd).1⟩

theorem TypeBody.Readable.elide
    {b : TypeBody}
    (h : b.Readable) :
    (b.elide hidden).Readable := by
  cases b with
  | scalar => trivial
  | object is fs => exact List.forall_mem_map.mpr fun f hf => (h f hf).elide
  | interface is fs => exact List.forall_mem_map.mpr fun f hf => (h f hf).elide
  | union ms => trivial
  | enum vs => exact List.forall_mem_map.mpr fun v hv => (h v hv).elide
  | inputObject fs => exact List.forall_mem_map.mpr fun f hf => (h f hf).elide

theorem Directive.readable_elideSourced
    {ds : List (Sourced Directive)}
    (h : ∀ d ∈ ds.map Sourced.item, d.Readable) :
    ∀ d ∈ (elideSourced hidden ds).map Sourced.item, d.Readable :=
  fun d hd => h d ((List.filter_sublist.map Sourced.item).subset hd)

theorem TypeDef.Readable.elide
    {t : TypeDef}
    (h : t.Readable) :
    (t.elide hidden).Readable :=
  ⟨Directive.readable_elideSourced h.applications, h.body.elide⟩

theorem DirectiveDef.Readable.elide
    {d : DirectiveDef}
    (h : d.Readable) :
    (d.elide hidden).Readable :=
  ⟨List.forall_mem_map.mpr fun a ha => (h.arguments a ha).elide, h.locations⟩

/-- A readable schema is readable without hidden members. -/
theorem Schema.Readable.elide
    {s : Schema}
    (h : s.Readable)
    (hiddenType : Hidden) :
    (s.elide hiddenType hidden).Readable :=
  ⟨Directive.readable_elideSourced h.applications,
    List.forall_mem_map.mpr fun d hd => (h.directives d (List.mem_filter.mp hd).1).elide,
    List.forall_mem_map.mpr fun t ht => (h.types t (List.mem_filter.mp ht).1).elide⟩

end Elided

end Supergraph
