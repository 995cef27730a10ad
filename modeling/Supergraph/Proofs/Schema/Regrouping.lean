import Supergraph.Fusion.Elision
import Supergraph.Proofs.Schema.Grouping
import Supergraph.Proofs.Validity.Alike

/-!
# Types whose parts are regrouped

All parts of a type that is read again are regrouped (`TypeDef.Regrouped`), and so are those
of a schema definition, except for its roots, which always come in the same order.  Both are
written with the same extensions as before, also without hidden applications, and in the same
order just if grouping does not change it (`TypeDef.Regrouped.toDefinitions_eq_iff`,
`SchemaDef.Regrouped.toDefinitions_eq_iff`).
-/

namespace Supergraph

open Origin (Numbers)

namespace TypeBody

/-- The origins of all parts, for each sort of parts on its own. -/
def originLists : TypeBody → List (List Origin)
  | .scalar => []
  | .object is fs => [is.items.map Sourced.origin, fs.items.map Sourced.origin]
  | .interface is fs => [is.items.map Sourced.origin, fs.items.map Sourced.origin]
  | .union ms => [ms.items.map Sourced.origin]
  | .enum vs => [vs.items.map Sourced.origin]
  | .inputObject fs => [fs.items.map Sourced.origin]

theorem flatten_originLists
    (b : TypeBody) :
    b.originLists.flatten = b.origins := by
  cases b <;> simp [originLists, origins]

/-- The second body has the parts of the first, each sort of them regrouped. -/
inductive Regrouped
    (number : Origin → Origin)
    (places : List Origin) :
    TypeBody → TypeBody → Prop
  | scalar :
      Regrouped number places .scalar .scalar
  | object
      {is js : Table (Sourced Name)}
      {fs gs : Table (Sourced Field)}
      (interfaces : Sourced.Regrouped number places is.items js.items)
      (fields : Sourced.Regrouped number places fs.items gs.items) :
      Regrouped number places (.object is fs) (.object js gs)
  | interface
      {is js : Table (Sourced Name)}
      {fs gs : Table (Sourced Field)}
      (interfaces : Sourced.Regrouped number places is.items js.items)
      (fields : Sourced.Regrouped number places fs.items gs.items) :
      Regrouped number places (.interface is fs) (.interface js gs)
  | union
      {ms ns : Table (Sourced Name)}
      (members : Sourced.Regrouped number places ms.items ns.items) :
      Regrouped number places (.union ms) (.union ns)
  | enum
      {vs ws : Table (Sourced EnumValue)}
      (values : Sourced.Regrouped number places vs.items ws.items) :
      Regrouped number places (.enum vs) (.enum ws)
  | inputObject
      {vs ws : Table (Sourced InputValue)}
      (fields : Sourced.Regrouped number places vs.items ws.items) :
      Regrouped number places (.inputObject vs) (.inputObject ws)

variable {number : Origin → Origin} {places : List Origin} {o : Origin} {b c c' : TypeBody}

section Adding

/-- A body that comes from the definition alone. -/
theorem regrouped_start
    (definition : ∀ o ∈ c.origins, o = .definition)
    (same : c.fromOrigin .definition = b.fromOrigin .definition) :
    Regrouped number [] b c := by
  cases c with
  | scalar =>
      cases b with
      | scalar => exact .scalar
      | _ => cases same
  | object is fs =>
      simp only [origins, List.forall_mem_append, List.forall_mem_map] at definition
      cases b with
      | object js gs =>
          injection same with interfaces fields
          exact .object (.start definition.1 interfaces) (.start definition.2 fields)
      | _ => cases same
  | interface is fs =>
      simp only [origins, List.forall_mem_append, List.forall_mem_map] at definition
      cases b with
      | interface js gs =>
          injection same with interfaces fields
          exact .interface (.start definition.1 interfaces) (.start definition.2 fields)
      | _ => cases same
  | union ms =>
      simp only [origins, List.forall_mem_map] at definition
      cases b with
      | union ns =>
          injection same with members
          exact .union (.start definition members)
      | _ => cases same
  | enum vs =>
      simp only [origins, List.forall_mem_map] at definition
      cases b with
      | enum ws =>
          injection same with values
          exact .enum (.start definition values)
      | _ => cases same
  | inputObject fs =>
      simp only [origins, List.forall_mem_map] at definition
      cases b with
      | inputObject gs =>
          injection same with fields
          exact .inputObject (.start definition fields)
      | _ => cases same

/-- One place after the other is added. -/
theorem Regrouped.add
    (h : Regrouped number places b c)
    (extension : number o ≠ .definition)
    (added : c.add (number o) (b.fromOrigin o) = some c') :
    Regrouped number (places ++ [o]) b c' := by
  have added := added_of_add added
  cases h with
  | scalar => cases added; exact .scalar
  | object interfaces fields =>
      cases added with
      | object is fs =>
          exact .object (is ▸ interfaces.add extension) (fs ▸ fields.add extension)
  | interface interfaces fields =>
      cases added with
      | interface is fs =>
          exact .interface (is ▸ interfaces.add extension) (fs ▸ fields.add extension)
  | union members =>
      cases added with
      | union ms => exact .union (ms ▸ members.add extension)
  | enum values =>
      cases added with
      | enum vs => exact .enum (vs ▸ values.add extension)
  | inputObject fields =>
      cases added with
      | inputObject fs => exact .inputObject (fs ▸ fields.add extension)

end Adding

/-- What is added from one place is all that comes from there. -/
theorem Added.fromOrigin_of_ne
    {contents : TypeContents}
    {o o' : Origin}
    (h : Added o c contents c')
    (other : o ≠ o') :
    c'.fromOrigin o' = c.fromOrigin o' := by
  cases h <;>
    simp [fromOrigin, Sourced.fromOrigin_append, Sourced.fromOrigin_allFrom_of_ne other, *]

/-- A definition is added to nothing. -/
theorem regrouped_of_definition
    (added : (ofKind b.kind).add .definition (b.fromOrigin .definition) = some c) :
    Regrouped number [] b c := by
  have added := added_of_add added
  cases b with
  | scalar => cases added; exact .scalar
  | object is fs =>
      cases added with
      | object js gs => exact .object (.of_definition js) (.of_definition gs)
  | interface is fs =>
      cases added with
      | interface js gs => exact .interface (.of_definition js) (.of_definition gs)
  | union ms =>
      cases added with
      | union ns => exact .union (.of_definition ns)
  | enum vs =>
      cases added with
      | enum ws => exact .enum (.of_definition ws)
  | inputObject fs =>
      cases added with
      | inputObject gs => exact .inputObject (.of_definition gs)

section Reading

variable (h : Regrouped number places b c)

include h

theorem Regrouped.kind : c.kind = b.kind := by
  cases h <;> rfl

theorem Regrouped.fromOrigin_definition :
    c.fromOrigin .definition = b.fromOrigin .definition := by
  cases h with
  | scalar => rfl
  | object interfaces fields =>
      rw [fromOrigin, fromOrigin, interfaces.definition, fields.definition]
  | interface interfaces fields =>
      rw [fromOrigin, fromOrigin, interfaces.definition, fields.definition]
  | union members => rw [fromOrigin, fromOrigin, members.definition]
  | enum values => rw [fromOrigin, fromOrigin, values.definition]
  | inputObject fields => rw [fromOrigin, fromOrigin, fields.definition]

theorem Regrouped.fromOrigin_number
    (numbers : Numbers number places)
    (ho : o ∈ places) :
    c.fromOrigin (number o) = b.fromOrigin o := by
  cases h with
  | scalar => rfl
  | object interfaces fields =>
      rw [fromOrigin, fromOrigin, interfaces.fromOrigin_number numbers ho,
        fields.fromOrigin_number numbers ho]
  | interface interfaces fields =>
      rw [fromOrigin, fromOrigin, interfaces.fromOrigin_number numbers ho,
        fields.fromOrigin_number numbers ho]
  | union members => rw [fromOrigin, fromOrigin, members.fromOrigin_number numbers ho]
  | enum values => rw [fromOrigin, fromOrigin, values.fromOrigin_number numbers ho]
  | inputObject fields => rw [fromOrigin, fromOrigin, fields.fromOrigin_number numbers ho]

theorem Regrouped.origins :
    c.origins.filter (fun o => o ≠ .definition) =
      ((b.originLists.map (grouped places)).flatten).map number := by
  cases h with
  | scalar => rfl
  | object interfaces fields =>
      simp only [TypeBody.origins, originLists, List.filter_append, interfaces.origins,
        fields.origins, List.map_cons, List.map_nil, List.flatten_cons, List.flatten_nil,
        List.append_nil, List.map_append]
  | interface interfaces fields =>
      simp only [TypeBody.origins, originLists, List.filter_append, interfaces.origins,
        fields.origins, List.map_cons, List.map_nil, List.flatten_cons, List.flatten_nil,
        List.append_nil, List.map_append]
  | union members =>
      simp only [TypeBody.origins, originLists, members.origins, List.map_cons, List.map_nil,
        List.flatten_cons, List.flatten_nil, List.append_nil]
  | enum values =>
      simp only [TypeBody.origins, originLists, values.origins, List.map_cons, List.map_nil,
        List.flatten_cons, List.flatten_nil, List.append_nil]
  | inputObject fields =>
      simp only [TypeBody.origins, originLists, fields.origins, List.map_cons, List.map_nil,
        List.flatten_cons, List.flatten_nil, List.append_nil]

/-- Regrouping changes the order of parts and nothing else. -/
theorem Regrouped.perm
    (numbers : Numbers number places)
    (covered : ∀ o ∈ b.origins, o ≠ .definition → o ∈ places) :
    c.interfaces.Perm b.interfaces ∧ c.fields.Perm b.fields ∧ c.members.Perm b.members ∧
      c.values.Perm b.values ∧ c.inputFields.Perm b.inputFields := by
  cases h with
  | scalar => exact ⟨.refl _, .refl _, .refl _, .refl _, .refl _⟩
  | object interfaces fields =>
      simp only [TypeBody.origins, List.forall_mem_append, List.forall_mem_map] at covered
      exact ⟨interfaces.perm numbers covered.1, fields.perm numbers covered.2, .refl _, .refl _,
        .refl _⟩
  | interface interfaces fields =>
      simp only [TypeBody.origins, List.forall_mem_append, List.forall_mem_map] at covered
      exact ⟨interfaces.perm numbers covered.1, fields.perm numbers covered.2, .refl _, .refl _,
        .refl _⟩
  | union members =>
      simp only [TypeBody.origins, List.forall_mem_map] at covered
      exact ⟨.refl _, .refl _, members.perm numbers covered, .refl _, .refl _⟩
  | enum values =>
      simp only [TypeBody.origins, List.forall_mem_map] at covered
      exact ⟨.refl _, .refl _, .refl _, values.perm numbers covered, .refl _⟩
  | inputObject fields =>
      simp only [TypeBody.origins, List.forall_mem_map] at covered
      exact ⟨.refl _, .refl _, .refl _, .refl _, fields.perm numbers covered⟩

theorem Regrouped.elide
    (hidden : Hidden) :
    Regrouped number places (b.elide hidden) (c.elide hidden) := by
  cases h with
  | scalar => exact .scalar
  | object interfaces fields => exact .object interfaces (fields.map (Field.elide hidden))
  | interface interfaces fields => exact .interface interfaces (fields.map (Field.elide hidden))
  | union members => exact .union members
  | enum values => exact .enum (values.map (EnumValue.elide hidden))
  | inputObject fields => exact .inputObject (fields.map (InputValue.elide hidden))

end Reading

end TypeBody

namespace TypeDef

variable {number : Origin → Origin} {places : List Origin} {o : Origin} {t u u' : TypeDef}

/-- The second type has the parts of the first, regrouped, and is the same otherwise. -/
structure Regrouped
    (number : Origin → Origin)
    (places : List Origin)
    (t u : TypeDef) :
    Prop where
  description : u.description = t.description
  name : u.name = t.name
  builtIn : u.builtIn = t.builtIn
  directives : Sourced.Regrouped number places t.directives u.directives
  body : t.body.Regrouped number places u.body

/-- The origins of all parts, for each sort of parts on its own. -/
def originLists (t : TypeDef) : List (List Origin) :=
  t.directives.map Sourced.origin :: t.body.originLists

/-- The extensions in the order in which they come up once the parts of each sort are grouped
by these places. -/
def extensionsBy (places : List Origin) (t : TypeDef) : List Origin :=
  distinct (t.originLists.map (grouped places)).flatten

/-- Grouping the parts by these places leaves the extensions as they are written. -/
def GroupsAlike (places : List Origin) (t : TypeDef) : Prop :=
  (t.extensionsBy places).map t.fromOrigin = t.extensions.map t.fromOrigin

instance : Decidable (t.GroupsAlike places) :=
  inferInstanceAs (Decidable (_ = _))

section Adding

theorem Regrouped.add
    (h : Regrouped number places t u)
    (extension : number o ≠ .definition)
    (added : u.add (number o) (t.fromOrigin o) = .ok u') :
    Regrouped number (places ++ [o]) t u' := by
  obtain ⟨body, contents, rfl⟩ := add_eq_ok added
  exact ⟨h.description, h.name, h.builtIn, h.directives.add extension,
    h.body.add extension contents⟩

/-- All extensions are added in order. -/
theorem Regrouped.extendAll
    {whole rest : List Origin}
    (h : Regrouped (Origin.renumber whole) places t u)
    (split : whole = places ++ rest)
    (nodup : whole.Nodup)
    (extensions : ∀ o ∈ whole, o ≠ .definition)
    (extended : u.extendAll places.length (rest.map t.fromOrigin) = .ok u') :
    Regrouped (Origin.renumber whole) whole t u' := by
  induction rest generalizing places u with
  | nil =>
      cases extended
      rw [split, List.append_nil]
      rwa [split, List.append_nil] at h
  | cons o rest ih =>
      have number := Origin.renumber_of_append_cons split nodup extensions
      rw [List.map_cons, TypeDef.extendAll] at extended
      cases added : u.add (.extension places.length) (t.fromOrigin o) with
      | error e =>
          rw [added] at extended
          cases extended
      | ok u₁ =>
          rw [added] at extended
          rw [← number] at added
          have extension := number ▸ Origin.extension_ne_definition places.length
          refine ih (h.add extension added) (by simp [split]) ?_
          rw [List.length_append, List.length_singleton]
          exact extended

end Adding

section Grouped

theorem extensions_eq
    (t : TypeDef) :
    t.extensions = Origin.extensions t.originLists.flatten := by
  rw [originLists, List.flatten_cons, TypeBody.flatten_originLists, extensions]

theorem toDefinitions_eq
    (t : TypeDef) :
    t.toDefinitions = (if t.builtIn then [] else [.type (t.fromOrigin .definition)]) ++
      (t.extensions.map t.fromOrigin).map .typeExtension := by
  rw [List.map_map]
  rfl

theorem grouped_originLists
    (t : TypeDef) :
    List.Forall₂ (fun xs ys => ys = grouped places xs ∨
      ys = xs.filter (fun o => o ≠ .definition)) t.originLists
      (t.originLists.map (grouped places)) :=
  List.forall₂_map_right_iff.mpr (List.forall₂_same.mpr fun _ _ => Or.inl rfl)

variable (numbers : Numbers number places)

include numbers

theorem extensionsBy_perm
    (within : t.extensions ⊆ places) :
    (t.extensionsBy places).Perm t.extensions := by
  rw [extensions_eq] at within ⊢
  exact Origin.distinct_perm_extensions numbers within (grouped_originLists t)

/-- Places by which the extensions are in order leave them as they are. -/
theorem groupsAlike_of_inOrder
    (inOrder : Origin.InOrder places t.extensions) :
    t.GroupsAlike places := by
  have within := inOrder.subset
  rw [extensions_eq] at within inOrder
  rw [GroupsAlike, extensions_eq]
  exact congrArg (List.map _)
    (Origin.distinct_eq_extensions numbers within (grouped_originLists t) inOrder)

end Grouped

-- Other places may do so, too: here the application alone brings the second extension up first.
example :
    let t : TypeDef :=
      { description := none
        name := ⟨"Either", by decide⟩
        builtIn := false
        directives := [⟨.extension 1, ⟨⟨"note", by decide⟩, []⟩⟩]
        body := .union
          ⟨[⟨.extension 0, ⟨"One", by decide⟩⟩, ⟨.extension 1, ⟨"Other", by decide⟩⟩], by decide⟩ }
    t.extensions = [.extension 1, .extension 0] ∧
      t.GroupsAlike [.extension 0, .extension 1] := by
  decide

section Reading

variable (h : Regrouped number places t u)

include h

theorem Regrouped.kind : u.kind = t.kind :=
  h.body.kind

theorem Regrouped.fromOrigin_definition :
    u.fromOrigin .definition = t.fromOrigin .definition := by
  simp only [fromOrigin, h.description, h.name, h.directives.definition,
    h.body.fromOrigin_definition]

theorem Regrouped.fromOrigin_number
    (numbers : Numbers number places)
    (ho : o ∈ places) :
    u.fromOrigin (number o) = t.fromOrigin o := by
  simp only [fromOrigin, h.name, h.directives.fromOrigin_number numbers ho,
    h.body.fromOrigin_number numbers ho, numbers.extension o ho, numbers.ne_definition ho, if_false]

theorem Regrouped.elide
    (hidden : Hidden) :
    Regrouped number places (t.elide hidden) (u.elide hidden) :=
  ⟨h.description, h.name, h.builtIn, h.directives.filter (fun d => !hidden d.name),
    h.body.elide hidden⟩

variable (numbers : Numbers number places)

include numbers

theorem Regrouped.alike
    (within : t.extensions ⊆ places) :
    t.Alike u := by
  have covered : ∀ o ∈ t.directives.map Sourced.origin ++ t.body.origins,
      o ≠ .definition → o ∈ places :=
    fun o ho extension => within (Origin.mem_extensions_iff.mpr ⟨ho, extension⟩)
  rw [List.forall_mem_append, List.forall_mem_map] at covered
  obtain ⟨interfaces, fields, members, values, inputFields⟩ := h.body.perm numbers covered.2
  exact ⟨h.name, h.builtIn, h.kind, h.directives.perm numbers covered.1, interfaces, fields,
    members, values, inputFields⟩

/-- The extensions are written as they come up in the groups. -/
theorem Regrouped.extensions
    (within : t.extensions ⊆ places) :
    u.extensions = (t.extensionsBy places).map number := by
  have origins : (u.directives.map Sourced.origin ++ u.body.origins).filter
      (fun o => o ≠ .definition) = (t.originLists.map (grouped places)).flatten.map number := by
    rw [List.filter_append, h.directives.origins, h.body.origins, originLists, List.map_cons,
      List.flatten_cons, List.map_append]
  rw [extensions_eq] at within
  exact Origin.extensions_eq_map_distinct numbers within (grouped_originLists t) origins

theorem Regrouped.typeExtensions_eq
    {os : List Origin}
    (within : os ⊆ places) :
    (os.map number).map (fun o => SystemDefinition.typeExtension (u.fromOrigin o)) =
      (os.map t.fromOrigin).map .typeExtension := by
  rw [List.map_map, List.map_map]
  refine List.map_congr_left fun o ho => ?_
  exact congrArg SystemDefinition.typeExtension (h.fromOrigin_number numbers (within ho))

/-- A type whose parts are regrouped is written with the extensions as they come up in the
groups. -/
theorem Regrouped.toDefinitions
    (within : t.extensions ⊆ places) :
    u.toDefinitions = (if t.builtIn then [] else [.type (t.fromOrigin .definition)]) ++
      ((t.extensionsBy places).map t.fromOrigin).map .typeExtension := by
  have inside : t.extensionsBy places ⊆ places := fun o ho =>
    within ((extensionsBy_perm numbers within).mem_iff.mp ho)
  rw [TypeDef.toDefinitions, h.builtIn, h.fromOrigin_definition, h.extensions numbers within,
    h.typeExtensions_eq numbers inside]

/-- It is written with the same extensions as before. -/
theorem Regrouped.toDefinitions_perm
    (within : t.extensions ⊆ places) :
    u.toDefinitions.Perm t.toDefinitions := by
  rw [h.toDefinitions numbers within, toDefinitions_eq]
  exact (((extensionsBy_perm numbers within).map _).map _).append_left _

/-- **Writing a type again.**  A type whose parts are regrouped is written as before just if
the extensions are left as they are. -/
theorem Regrouped.toDefinitions_eq_iff
    (within : t.extensions ⊆ places) :
    u.toDefinitions = t.toDefinitions ↔ t.GroupsAlike places := by
  rw [h.toDefinitions numbers within, toDefinitions_eq, List.append_cancel_left_eq,
    List.map_inj_right fun _ _ => SystemDefinition.typeExtension.inj, GroupsAlike]

theorem Regrouped.toDefinitions_eq
    (inOrder : Origin.InOrder places t.extensions) :
    u.toDefinitions = t.toDefinitions :=
  (h.toDefinitions_eq_iff numbers inOrder.subset).mpr (groupsAlike_of_inOrder numbers inOrder)

end Reading

end TypeDef

namespace SchemaDef

variable {number : Origin → Origin} {places : List Origin} {o o' : Origin} {d e e' : SchemaDef}

/-- The second schema definition has the parts of the first: what is applied to it regrouped,
the roots in their places. -/
structure Regrouped
    (number : Origin → Origin)
    (places : List Origin)
    (d e : SchemaDef) :
    Prop where
  description : e.description = d.description
  directives : Sourced.Regrouped number places d.directives e.directives
  root : ∀ k, e.root k = (d.root k).bind fun r =>
    if r.origin ∈ Origin.definition :: places then some ⟨number r.origin, r.item⟩ else none

theorem mem_root
    (h : d.extensions ⊆ places)
    {k : OperationKind}
    {r : Sourced Name}
    (declared : d.root k = some r) :
    r.origin ∈ Origin.definition :: places := by
  by_cases definition : r.origin = .definition
  · rw [definition]
    exact List.mem_cons_self
  · have mem : (k, r) ∈ d.roots :=
      List.mem_filterMap.mpr ⟨k, by cases k <;> decide, by rw [declared]; rfl⟩
    refine List.mem_cons_of_mem _ (h (Origin.mem_extensions_iff.mpr ⟨?_, definition⟩))
    exact List.mem_append_right _ (List.mem_map_of_mem (f := fun r => r.2.origin) mem)

section Adding

theorem root_addRoots_of_not_mem
    {rs : List (OperationKind × Name)}
    {k : OperationKind}
    (added : e.addRoots o rs = .ok e')
    (other : k ∉ rs.map Prod.fst) :
    e'.root k = e.root k := by
  induction rs generalizing e with
  | nil => cases added; rfl
  | cons r rs ih =>
      obtain ⟨k', n⟩ := r
      rw [List.map_cons, List.mem_cons, not_or] at other
      unfold addRoots at added
      split at added
      · cases added
      · rw [ih added other.2, root_withRoot, if_neg other.1]

theorem root_addRoots_of_mem
    {rs : List (OperationKind × Name)}
    {k : OperationKind}
    {n : Name}
    (added : e.addRoots o rs = .ok e')
    (distinct : (rs.map Prod.fst).Nodup)
    (mem : (k, n) ∈ rs) :
    e'.root k = some ⟨o, n⟩ := by
  induction rs generalizing e with
  | nil => cases mem
  | cons r rs ih =>
      obtain ⟨k', n'⟩ := r
      rw [List.map_cons, List.nodup_cons] at distinct
      unfold addRoots at added
      split at added
      · cases added
      · rcases List.mem_cons.mp mem with same | mem
        · cases same
          rw [root_addRoots_of_not_mem added distinct.1, root_withRoot, if_pos rfl]
        · exact ih added distinct.2 mem

theorem description_addRoots
    {rs : List (OperationKind × Name)}
    (added : e.addRoots o rs = .ok e') :
    e'.description = e.description := by
  induction rs generalizing e with
  | nil => cases added; rfl
  | cons r rs ih =>
      obtain ⟨k, n⟩ := r
      unfold addRoots at added
      split at added
      · cases added
      · exact (ih added).trans (by cases k <;> rfl)

theorem description_add
    {text : SchemaText}
    (added : e.add o text = .ok e') :
    e'.description = e.description := by
  have kept := description_addRoots added
  exact kept

/-- The roots after those that come from one place were declared. -/
theorem root_add_fromOrigin
    (added : e.add o' (d.fromOrigin o) = .ok e')
    (k : OperationKind) :
    e'.root k = match d.root k with
      | some r => if r.origin = o then some ⟨o', r.item⟩ else e.root k
      | none => e.root k := by
  have other : (∀ n, d.root k ≠ some ⟨o, n⟩) → e'.root k = e.root k := by
    intro absent
    refine (root_addRoots_of_not_mem added fun mem => ?_).trans (by cases k <;> rfl)
    obtain ⟨⟨k', n⟩, hr, rfl⟩ := List.mem_map.mp mem
    exact absent n (mem_rootsFrom_iff.mp hr)
  split
  · rename_i r declared
    split
    · rename_i from_here
      subst from_here
      exact root_addRoots_of_mem added (nodup_rootsFrom _ _) (mem_rootsFrom_iff.mpr declared)
    · rename_i elsewhere
      refine other fun n same => elsewhere ?_
      rw [declared] at same
      cases same
      rfl
  · rename_i absent
    refine other fun n same => ?_
    rw [absent] at same
    cases same

/-- A definition is added to nothing. -/
theorem regrouped_of_definition
    (numbers : number .definition = .definition)
    (added : add .definition { empty with description := d.description }
      (d.fromOrigin .definition) = .ok e) :
    Regrouped number [] d e where
  description := by
    have kept := description_add added
    exact kept
  directives := .of_definition (directives_add added)
  root := by
    intro k
    rw [root_add_fromOrigin added k]
    have none : { empty with description := d.description }.root k = none := by cases k <;> rfl
    cases declared : d.root k with
    | none => exact none
    | some r =>
        by_cases definition : r.origin = .definition <;> simp [definition, numbers, none]

theorem Regrouped.add
    (h : Regrouped number places d e)
    (extension : number o ≠ .definition)
    (added : e.add (number o) (d.fromOrigin o) = .ok e') :
    Regrouped number (places ++ [o]) d e' where
  description := (description_add added).trans h.description
  directives := directives_add added ▸ h.directives.add extension
  root := by
    intro k
    rw [root_add_fromOrigin added k]
    cases declared : d.root k with
    | none => simp [h.root k, declared]
    | some r =>
        by_cases here : r.origin = o
        · simp [here]
        · simp [here, h.root k, declared]

/-- All extensions are added in order. -/
theorem Regrouped.extendAll
    {whole rest : List Origin}
    (h : Regrouped (Origin.renumber whole) places d e)
    (split : whole = places ++ rest)
    (nodup : whole.Nodup)
    (extensions : ∀ o ∈ whole, o ≠ .definition)
    (extended : e.extendAll places.length (rest.map d.fromOrigin) = .ok e') :
    Regrouped (Origin.renumber whole) whole d e' := by
  induction rest generalizing places e with
  | nil =>
      cases extended
      rw [split, List.append_nil]
      rwa [split, List.append_nil] at h
  | cons o rest ih =>
      have number := Origin.renumber_of_append_cons split nodup extensions
      rw [List.map_cons, SchemaDef.extendAll] at extended
      cases added : e.add (.extension places.length) (d.fromOrigin o) with
      | error err =>
          rw [added] at extended
          cases extended
      | ok e₁ =>
          rw [added] at extended
          rw [← number] at added
          have extension := number ▸ Origin.extension_ne_definition places.length
          refine ih (h.add extension added) (by simp [split]) ?_
          rw [List.length_append, List.length_singleton]
          exact extended

end Adding

section Grouped

/-- The origins of what is applied and of the roots. -/
def originLists (d : SchemaDef) : List (List Origin) :=
  [d.directives.map Sourced.origin, d.roots.map fun r => r.2.origin]

/-- The extensions in the order in which they come up once what is applied is grouped by these
places.  The roots are in their own order. -/
def extensionsBy (places : List Origin) (d : SchemaDef) : List Origin :=
  distinct (grouped places (d.directives.map Sourced.origin) ++
    (d.roots.map fun r => r.2.origin).filter fun o => o ≠ .definition)

/-- Grouping what is applied by these places leaves the extensions as they are written. -/
def GroupsAlike (places : List Origin) (d : SchemaDef) : Prop :=
  (d.extensionsBy places).map d.fromOrigin = d.extensions.map d.fromOrigin

instance : Decidable (d.GroupsAlike places) :=
  inferInstanceAs (Decidable (_ = _))

theorem extensions_eq
    (d : SchemaDef) :
    d.extensions = Origin.extensions d.originLists.flatten := by
  rw [originLists, List.flatten_cons, List.flatten_singleton, extensions]

theorem toDefinitions_eq
    (types : Table TypeDef)
    (d : SchemaDef) :
    d.toDefinitions types =
      (if d.isImplicit types then [] else [.schema (d.fromOrigin .definition)]) ++
        (d.extensions.map d.fromOrigin).map .schemaExtension := by
  rw [List.map_map]
  rfl

theorem grouped_originLists
    (d : SchemaDef) :
    List.Forall₂ (fun xs ys => ys = grouped places xs ∨
      ys = xs.filter (fun o => o ≠ .definition)) d.originLists
      [grouped places (d.directives.map Sourced.origin),
        (d.roots.map fun r => r.2.origin).filter fun o => o ≠ .definition] :=
  .cons (Or.inl rfl) (.cons (Or.inr rfl) .nil)

theorem extensionsBy_eq
    (places : List Origin)
    (d : SchemaDef) :
    d.extensionsBy places = distinct [grouped places (d.directives.map Sourced.origin),
      (d.roots.map fun r => r.2.origin).filter fun o => o ≠ .definition].flatten := by
  rw [List.flatten_cons, List.flatten_singleton, extensionsBy]

variable (numbers : Numbers number places)

include numbers

theorem extensionsBy_perm
    (within : d.extensions ⊆ places) :
    (d.extensionsBy places).Perm d.extensions := by
  rw [extensions_eq] at within ⊢
  rw [extensionsBy_eq]
  exact Origin.distinct_perm_extensions numbers within (grouped_originLists d)

/-- Places by which the extensions are in order leave them as they are. -/
theorem groupsAlike_of_inOrder
    (inOrder : Origin.InOrder places d.extensions) :
    d.GroupsAlike places := by
  have within := inOrder.subset
  rw [extensions_eq] at within inOrder
  rw [GroupsAlike, extensions_eq, extensionsBy_eq]
  exact congrArg (List.map _)
    (Origin.distinct_eq_extensions numbers within (grouped_originLists d) inOrder)

end Grouped

section Reading

theorem rootsFrom_eq
    (o : Origin)
    (d : SchemaDef) :
    d.rootsFrom o = OperationKind.all.filterMap fun k => (d.root k).bind fun r =>
      if r.origin = o then some (k, r.item) else none := by
  rw [rootsFrom, roots, List.filterMap_filterMap]
  refine List.filterMap_congr fun k _ => ?_
  cases d.root k <;> rfl

variable (h : Regrouped number places d e) (numbers : Numbers number places)

include h numbers

theorem Regrouped.rootsFrom_number
    (ho : o ∈ Origin.definition :: places) :
    e.rootsFrom (number o) = d.rootsFrom o := by
  rw [rootsFrom_eq, rootsFrom_eq]
  refine List.filterMap_congr fun k _ => ?_
  rw [h.root k]
  cases declared : d.root k with
  | none => rfl
  | some r =>
      by_cases inside : r.origin ∈ Origin.definition :: places
      · simp only [Option.bind_some, if_pos inside, numbers.number_inj inside ho]
      · have other : r.origin ≠ o := fun same => inside (same ▸ ho)
        simp only [Option.bind_some, if_neg inside, Option.bind_none, if_neg other]

theorem Regrouped.fromOrigin_definition :
    e.fromOrigin .definition = d.fromOrigin .definition := by
  have roots := h.rootsFrom_number numbers (o := .definition) List.mem_cons_self
  rw [numbers.definition] at roots
  simp only [fromOrigin, h.description, h.directives.definition, roots]

theorem Regrouped.fromOrigin_number
    (ho : o ∈ places) :
    e.fromOrigin (number o) = d.fromOrigin o := by
  simp only [fromOrigin, h.rootsFrom_number numbers (List.mem_cons_of_mem _ ho),
    h.directives.fromOrigin_number numbers ho, numbers.extension o ho, numbers.ne_definition ho,
    if_false]

omit numbers in
theorem Regrouped.elide
    (hidden : Hidden) :
    Regrouped number places (d.elide hidden) (e.elide hidden) := by
  refine ⟨h.description, h.directives.filter (fun d => !hidden d.name), fun k => ?_⟩
  have elided : ∀ d : SchemaDef, (d.elide hidden).root k = d.root k := by
    intro d
    cases k <;> rfl
  rw [elided, elided, h.root k]

section Roots

variable (within : d.extensions ⊆ places)

include within

omit numbers in
theorem Regrouped.root_eq
    (k : OperationKind) :
    e.root k = (d.root k).map fun r => ⟨number r.origin, r.item⟩ := by
  rw [h.root k]
  cases declared : d.root k with
  | none => rfl
  | some r => simp only [Option.bind_some, if_pos (mem_root within declared), Option.map_some]

omit numbers in
theorem Regrouped.roots :
    e.roots = d.roots.map fun r => (r.1, ⟨number r.2.origin, r.2.item⟩) := by
  rw [SchemaDef.roots, SchemaDef.roots, List.map_filterMap]
  refine List.filterMap_congr fun k _ => ?_
  rw [h.root_eq within k, Option.map_map, Option.map_map]
  rfl

/-- The extensions are written as they come up in the groups. -/
theorem Regrouped.extensions : e.extensions = (d.extensionsBy places).map number := by
  have roots : (e.roots.map fun r => r.2.origin).filter (fun o => o ≠ .definition) =
      ((d.roots.map fun r => r.2.origin).filter fun o => o ≠ .definition).map number := by
    rw [h.roots within, List.map_map, List.filter_map, List.filter_map, List.map_map]
    refine congrArg (List.map _) (List.filter_congr fun r hr => ?_)
    obtain ⟨k, -, hk⟩ := List.mem_filterMap.mp hr
    obtain ⟨r, declared, rfl⟩ := Option.map_eq_some_iff.mp hk
    have definition := numbers.number_inj (mem_root within declared) List.mem_cons_self
    rw [numbers.definition] at definition
    simp [definition]
  have origins : (e.directives.map Sourced.origin ++ e.roots.map fun r => r.2.origin).filter
      (fun o => o ≠ .definition) =
        [grouped places (d.directives.map Sourced.origin),
          (d.roots.map fun r => r.2.origin).filter
            fun o => o ≠ .definition].flatten.map number := by
    rw [List.filter_append, h.directives.origins, roots]
    simp
  rw [extensions_eq] at within
  rw [extensionsBy_eq]
  exact Origin.extensions_eq_map_distinct numbers within (grouped_originLists d) origins

/-- The same is applied to the schema, in another order at most. -/
theorem Regrouped.applications_perm : e.applications.Perm d.applications :=
  h.directives.perm numbers fun _ hx extension => within (Origin.mem_extensions_iff.mpr
    ⟨List.mem_append_left _ (List.mem_map_of_mem hx), extension⟩)

theorem Regrouped.isImplicit
    {types types' : Table TypeDef}
    (implied : ∀ k, Schema.impliedRoot? types' k = Schema.impliedRoot? types k) :
    e.isImplicit types' = d.isImplicit types := by
  have applied : e.directives.isEmpty = d.directives.isEmpty := by
    have same := (h.applications_perm numbers within).isEmpty_eq
    rwa [applications, applications, List.isEmpty_map, List.isEmpty_map] at same
  have extended : e.extensions.isEmpty = d.extensions.isEmpty := by
    have same := (extensionsBy_perm numbers within).isEmpty_eq
    rwa [← List.isEmpty_map (f := number), ← h.extensions numbers within] at same
  have definition := h.rootsFrom_number numbers (o := .definition) List.mem_cons_self
  rw [numbers.definition] at definition
  have items : ∀ k, (e.root k).map Sourced.item = (d.root k).map Sourced.item := by
    intro k
    rw [h.root_eq within k, Option.map_map]
    rfl
  simp only [SchemaDef.isImplicit, saysWhatIsImplied, definition, h.description, applied, extended,
    h.roots within, List.isEmpty_map, items, implied]

theorem Regrouped.schemaExtensions_eq :
    e.extensions.map (fun o => SystemDefinition.schemaExtension (e.fromOrigin o)) =
      ((d.extensionsBy places).map d.fromOrigin).map .schemaExtension := by
  rw [h.extensions numbers within, List.map_map, List.map_map]
  refine List.map_congr_left fun o ho => ?_
  exact congrArg SystemDefinition.schemaExtension (h.fromOrigin_number numbers
    (within ((extensionsBy_perm numbers within).mem_iff.mp ho)))

end Roots

section Writing

variable {types types' : Table TypeDef}
  (implied : ∀ k, Schema.impliedRoot? types' k = Schema.impliedRoot? types k)

include implied

section Within

variable (within : d.extensions ⊆ places)

include within

/-- A schema definition whose parts are regrouped is written with the extensions as they come
up in the groups. -/
theorem Regrouped.toDefinitions :
    e.toDefinitions types' =
      (if d.isImplicit types then [] else [.schema (d.fromOrigin .definition)]) ++
        ((d.extensionsBy places).map d.fromOrigin).map .schemaExtension := by
  rw [SchemaDef.toDefinitions, h.isImplicit numbers within implied,
    h.fromOrigin_definition numbers, h.schemaExtensions_eq numbers within]

/-- It is written with the same extensions as before. -/
theorem Regrouped.toDefinitions_perm : (e.toDefinitions types').Perm (d.toDefinitions types) := by
  rw [h.toDefinitions numbers implied within, toDefinitions_eq]
  exact (((extensionsBy_perm numbers within).map _).map _).append_left _

/-- **Writing a schema definition again.**  One whose parts are regrouped is written as before
just if the extensions are left as they are. -/
theorem Regrouped.toDefinitions_eq_iff :
    e.toDefinitions types' = d.toDefinitions types ↔ d.GroupsAlike places := by
  rw [h.toDefinitions numbers implied within, toDefinitions_eq, List.append_cancel_left_eq,
    List.map_inj_right fun _ _ => SystemDefinition.schemaExtension.inj, GroupsAlike]

end Within

theorem Regrouped.toDefinitions_eq
    (inOrder : Origin.InOrder places d.extensions) :
    e.toDefinitions types' = d.toDefinitions types :=
  (h.toDefinitions_eq_iff numbers implied inOrder.subset).mpr
    (groupsAlike_of_inOrder numbers inOrder)

end Writing

end Reading

end SchemaDef

end Supergraph
