import Supergraph.Proofs.Table
import Supergraph.Schema.Assembly
import Supergraph.Schema.Writing

/-!
# Putting parts back together

What a type or a schema definition is written as can be put together again, place by
place: first the definition, then the extensions, each under a new number.  A name never
comes twice, because what has been taken in so far is *drawn from* other places of the
same whole (`TypeBody.DrawnFrom`) and the names of the whole are distinct.
-/

namespace Supergraph

namespace Sourced

variable {α : Type}

@[simp] theorem map_item_allFrom
    (o : Origin)
    (xs : List α) :
    (allFrom o xs).map item = xs := by
  simp [allFrom, Function.comp_def]

/-- What comes from one place is found there. -/
theorem fromOrigin_eq
    (o : Origin)
    (xs : List (Sourced α)) :
    fromOrigin o xs = (xs.filter (fun x => x.origin = o)).map item := by
  induction xs with
  | nil => rfl
  | cons x xs ih =>
      by_cases hx : x.origin = o
      · simp only [fromOrigin, List.filterMap_cons, hx, if_true, List.filter_cons, decide_true,
          List.map_cons] at ih ⊢
        rw [ih]
      · simp only [fromOrigin, List.filterMap_cons, hx, if_false, List.filter_cons, decide_false,
          Bool.false_eq_true] at ih ⊢
        exact ih

theorem mem_fromOrigin_iff
    {o : Origin}
    {xs : List (Sourced α)}
    {a : α} :
    a ∈ fromOrigin o xs ↔ ⟨o, a⟩ ∈ xs := by
  rw [fromOrigin_eq, List.mem_map]
  constructor
  · rintro ⟨⟨o', b⟩, hx, rfl⟩
    obtain ⟨found, ho⟩ := List.mem_filter.mp hx
    obtain rfl : o' = o := of_decide_eq_true ho
    exact found
  · intro hx
    exact ⟨⟨o, a⟩, List.mem_filter.mpr ⟨hx, decide_eq_true rfl⟩, rfl⟩

variable [Keyed α]

theorem map_key_allFrom_fromOrigin
    (o o' : Origin)
    (xs : List (Sourced α)) :
    (allFrom o' (fromOrigin o xs)).map key = (xs.filter (fun x => x.origin = o)).map key := by
  rw [fromOrigin_eq, allFrom, List.map_map, List.map_map]
  rfl

end Sourced

section Tables

variable {α : Type} [Keyed α]

/-- Every name of the first table is that of a part of the second that comes from one of
these places. -/
def Table.DrawnFrom (os : List Origin) (t u : Table (Sourced α)) : Prop :=
  ∀ x ∈ t.items, ∃ y ∈ u.items, key y = key x ∧ y.origin ∈ os

namespace Table.DrawnFrom

variable {os : List Origin} {o : Origin} {t u v : Table (Sourced α)}

theorem empty :
    DrawnFrom os (.empty : Table (Sourced α)) u := by
  intro x hx
  cases hx

theorem self
    (h : ∀ x ∈ t.items, x.origin ∈ os) :
    DrawnFrom os t t :=
  fun x hx => ⟨x, hx, rfl, h x hx⟩

theorem items_append?
    {xs : List (Sourced α)}
    (h : t.append? xs = some v) :
    v.items = t.items ++ xs := by
  unfold append? ofList? at h
  split at h
  · cases h
    rfl
  · cases h

/-- Parts that are added to a whole leave drawn from it what was drawn from it. -/
theorem of_append
    (h : DrawnFrom os t u)
    {xs : List (Sourced α)}
    (added : v.items = u.items ++ xs) :
    DrawnFrom os t v := by
  intro x hx
  obtain ⟨y, hy, hyx⟩ := h x hx
  exact ⟨y, by rw [added]; exact List.mem_append_left _ hy, hyx⟩

/-- What comes from another place can be added. -/
theorem append?_fromOrigin
    (h : DrawnFrom os t u)
    (fresh : o ∉ os)
    (o' : Origin) :
    ∃ v, t.append? (Sourced.allFrom o' (Sourced.fromOrigin o u.items)) = some v ∧
      DrawnFrom (o :: os) v u := by
  have own : ((Sourced.allFrom o' (Sourced.fromOrigin o u.items)).map key).Nodup := by
    rw [Sourced.map_key_allFrom_fromOrigin]
    exact u.nodup.sublist (List.Sublist.map key List.filter_sublist)
  have apart : ∀ a ∈ t.items.map key,
      ∀ b ∈ (Sourced.allFrom o' (Sourced.fromOrigin o u.items)).map key, a ≠ b := by
    rintro _ ha _ hb rfl
    obtain ⟨x, hx, hxa⟩ := List.mem_map.mp ha
    rw [Sourced.map_key_allFrom_fromOrigin] at hb
    obtain ⟨z, hz, hzx⟩ := List.mem_map.mp hb
    obtain ⟨hz, hzo⟩ := List.mem_filter.mp hz
    obtain ⟨y, hy, hyx, hyo⟩ := h x hx
    obtain rfl : y = z := List.inj_on_of_nodup_map u.nodup hy hz (hyx.trans (hxa.trans hzx.symm))
    exact fresh (of_decide_eq_true hzo ▸ hyo)
  have nodup : ((t.items ++ Sourced.allFrom o' (Sourced.fromOrigin o u.items)).map key).Nodup := by
    rw [List.map_append]
    exact List.nodup_append.mpr ⟨t.nodup, own, apart⟩
  refine ⟨⟨_, nodup⟩, dif_pos nodup, ?_⟩
  intro x hx
  rcases List.mem_append.mp hx with hx | hx
  · obtain ⟨y, hy, hyx, hyo⟩ := h x hx
    exact ⟨y, hy, hyx, List.mem_cons_of_mem o hyo⟩
  · obtain ⟨a, ha, rfl⟩ := List.mem_map.mp hx
    exact ⟨⟨o, a⟩, Sourced.mem_fromOrigin_iff.mp ha, rfl, List.mem_cons_self⟩

end Table.DrawnFrom

end Tables

section Types

/-- The two have the same kind, and each name of the first is that of a part of the second
that comes from one of these places. -/
inductive TypeBody.DrawnFrom (os : List Origin) : TypeBody → TypeBody → Prop
  | scalar :
      DrawnFrom os .scalar .scalar
  | object
      {is js : Table (Sourced Name)}
      {fs gs : Table (Sourced Field)}
      (interfaces : is.DrawnFrom os js)
      (fields : fs.DrawnFrom os gs) :
      DrawnFrom os (.object is fs) (.object js gs)
  | interface
      {is js : Table (Sourced Name)}
      {fs gs : Table (Sourced Field)}
      (interfaces : is.DrawnFrom os js)
      (fields : fs.DrawnFrom os gs) :
      DrawnFrom os (.interface is fs) (.interface js gs)
  | union
      {ms ns : Table (Sourced Name)}
      (members : ms.DrawnFrom os ns) :
      DrawnFrom os (.union ms) (.union ns)
  | enum
      {vs ws : Table (Sourced EnumValue)}
      (values : vs.DrawnFrom os ws) :
      DrawnFrom os (.enum vs) (.enum ws)
  | inputObject
      {vs ws : Table (Sourced InputValue)}
      (fields : vs.DrawnFrom os ws) :
      DrawnFrom os (.inputObject vs) (.inputObject ws)

namespace TypeBody

variable {os : List Origin} {o o' : Origin} {b c b' : TypeBody}

@[simp] theorem kind_fromOrigin
    (o : Origin)
    (b : TypeBody) :
    (b.fromOrigin o).kind = b.kind := by
  cases b <;> rfl

theorem DrawnFrom.kind_eq
    (h : DrawnFrom os b c) :
    b.kind = c.kind := by
  cases h <;> rfl

theorem drawnFrom_ofKind
    (c : TypeBody) :
    DrawnFrom [] (ofKind c.kind) c := by
  cases c with
  | scalar => exact .scalar
  | object => exact .object .empty .empty
  | interface => exact .interface .empty .empty
  | union => exact .union .empty
  | enum => exact .enum .empty
  | inputObject => exact .inputObject .empty

theorem drawnFrom_self
    (h : ∀ o ∈ b.origins, o ∈ os) :
    DrawnFrom os b b := by
  cases b with
  | scalar => exact .scalar
  | object is fs =>
      simp only [origins, List.forall_mem_append, List.forall_mem_map] at h
      exact .object (.self h.1) (.self h.2)
  | interface is fs =>
      simp only [origins, List.forall_mem_append, List.forall_mem_map] at h
      exact .interface (.self h.1) (.self h.2)
  | union ms =>
      simp only [origins, List.forall_mem_map] at h
      exact .union (.self h)
  | enum vs =>
      simp only [origins, List.forall_mem_map] at h
      exact .enum (.self h)
  | inputObject fs =>
      simp only [origins, List.forall_mem_map] at h
      exact .inputObject (.self h)

/-- What comes from another place can be added. -/
theorem DrawnFrom.add_fromOrigin
    (h : DrawnFrom os b c)
    (fresh : o ∉ os)
    (o' : Origin) :
    ∃ b', b.add o' (c.fromOrigin o) = some b' ∧ DrawnFrom (o :: os) b' c := by
  cases h with
  | scalar => exact ⟨.scalar, rfl, .scalar⟩
  | object interfaces fields =>
      obtain ⟨is, his, drawnIs⟩ := interfaces.append?_fromOrigin fresh o'
      obtain ⟨fs, hfs, drawnFs⟩ := fields.append?_fromOrigin fresh o'
      exact ⟨.object is fs, by simp [add, fromOrigin, his, hfs], .object drawnIs drawnFs⟩
  | interface interfaces fields =>
      obtain ⟨is, his, drawnIs⟩ := interfaces.append?_fromOrigin fresh o'
      obtain ⟨fs, hfs, drawnFs⟩ := fields.append?_fromOrigin fresh o'
      exact ⟨.interface is fs, by simp [add, fromOrigin, his, hfs], .interface drawnIs drawnFs⟩
  | union members =>
      obtain ⟨ms, hms, drawn⟩ := members.append?_fromOrigin fresh o'
      exact ⟨.union ms, by simp [add, fromOrigin, hms], .union drawn⟩
  | enum values =>
      obtain ⟨vs, hvs, drawn⟩ := values.append?_fromOrigin fresh o'
      exact ⟨.enum vs, by simp [add, fromOrigin, hvs], .enum drawn⟩
  | inputObject fields =>
      obtain ⟨fs, hfs, drawn⟩ := fields.append?_fromOrigin fresh o'
      exact ⟨.inputObject fs, by simp [add, fromOrigin, hfs], .inputObject drawn⟩

/-- What a body has after something was added to it. -/
inductive Added (o : Origin) : TypeBody → TypeContents → TypeBody → Prop
  | scalar :
      Added o .scalar .scalar .scalar
  | object
      {is js : Table (Sourced Name)}
      {fs gs : Table (Sourced Field)}
      {is' : List Name}
      {fs' : List Field}
      (interfaces : js.items = is.items ++ Sourced.allFrom o is')
      (fields : gs.items = fs.items ++ Sourced.allFrom o fs') :
      Added o (.object is fs) (.object is' fs') (.object js gs)
  | interface
      {is js : Table (Sourced Name)}
      {fs gs : Table (Sourced Field)}
      {is' : List Name}
      {fs' : List Field}
      (interfaces : js.items = is.items ++ Sourced.allFrom o is')
      (fields : gs.items = fs.items ++ Sourced.allFrom o fs') :
      Added o (.interface is fs) (.interface is' fs') (.interface js gs)
  | union
      {ms ns : Table (Sourced Name)}
      {ms' : List Name}
      (members : ns.items = ms.items ++ Sourced.allFrom o ms') :
      Added o (.union ms) (.union ms') (.union ns)
  | enum
      {vs ws : Table (Sourced EnumValue)}
      {vs' : List EnumValue}
      (values : ws.items = vs.items ++ Sourced.allFrom o vs') :
      Added o (.enum vs) (.enum vs') (.enum ws)
  | inputObject
      {fs gs : Table (Sourced InputValue)}
      {fs' : List InputValue}
      (fields : gs.items = fs.items ++ Sourced.allFrom o fs') :
      Added o (.inputObject fs) (.inputObject fs') (.inputObject gs)

theorem added_of_add
    {contents : TypeContents}
    (added : c.add o contents = some b') :
    Added o c contents b' := by
  cases c with
  | scalar =>
      cases contents with
      | scalar => cases added; exact .scalar
      | _ => cases added
  | object is fs =>
      cases contents with
      | object is' fs' =>
          obtain ⟨js, interfaces, added⟩ := Option.bind_eq_some_iff.mp added
          obtain ⟨gs, fields, added⟩ := Option.bind_eq_some_iff.mp added
          cases added
          exact .object (Table.DrawnFrom.items_append? interfaces) (Table.DrawnFrom.items_append? fields)
      | _ => cases added
  | interface is fs =>
      cases contents with
      | interface is' fs' =>
          obtain ⟨js, interfaces, added⟩ := Option.bind_eq_some_iff.mp added
          obtain ⟨gs, fields, added⟩ := Option.bind_eq_some_iff.mp added
          cases added
          exact .interface (Table.DrawnFrom.items_append? interfaces)
            (Table.DrawnFrom.items_append? fields)
      | _ => cases added
  | union ms =>
      cases contents with
      | union ms' =>
          obtain ⟨ns, members, added⟩ := Option.bind_eq_some_iff.mp added
          cases added
          exact .union (Table.DrawnFrom.items_append? members)
      | _ => cases added
  | enum vs =>
      cases contents with
      | enum vs' =>
          obtain ⟨ws, values, added⟩ := Option.bind_eq_some_iff.mp added
          cases added
          exact .enum (Table.DrawnFrom.items_append? values)
      | _ => cases added
  | inputObject fs =>
      cases contents with
      | inputObject fs' =>
          obtain ⟨gs, fields, added⟩ := Option.bind_eq_some_iff.mp added
          cases added
          exact .inputObject (Table.DrawnFrom.items_append? fields)
      | _ => cases added

/-- What is added to a whole leaves drawn from it what was drawn from it. -/
theorem DrawnFrom.of_add
    (h : DrawnFrom os b c)
    {contents : TypeContents}
    (added : c.add o contents = some b') :
    DrawnFrom os b b' := by
  have added := added_of_add added
  cases h with
  | scalar => cases added; exact .scalar
  | object interfaces fields =>
      cases added with
      | object is fs => exact .object (interfaces.of_append is) (fields.of_append fs)
  | interface interfaces fields =>
      cases added with
      | interface is fs => exact .interface (interfaces.of_append is) (fields.of_append fs)
  | union members =>
      cases added with
      | union ms => exact .union (members.of_append ms)
  | enum values =>
      cases added with
      | enum vs => exact .enum (values.of_append vs)
  | inputObject fields =>
      cases added with
      | inputObject fs => exact .inputObject (fields.of_append fs)

end TypeBody

namespace TypeDef

variable {os : List Origin} {t u u' : TypeDef}

@[simp] theorem kind_contents_fromOrigin
    (o : Origin)
    (t : TypeDef) :
    (t.fromOrigin o).contents.kind = t.kind :=
  t.body.kind_fromOrigin o

/-- Adding changes neither the name of a type nor whether it is built in. -/
theorem add_eq_ok
    {o : Origin}
    {text : TypeText}
    (h : t.add o text = .ok u) :
    ∃ body, t.body.add o text.contents = some body ∧
      u = { t with
        directives := t.directives ++ Sourced.allFrom o text.directives
        body := body } := by
  unfold add at h
  split at h
  · split at h
    · rename_i body added
      cases h
      exact ⟨body, added, rfl⟩
    · cases h
  · cases h

theorem add_fromOrigin
    (h : u.body.DrawnFrom os t.body)
    {o : Origin}
    (fresh : o ∉ os)
    (o' : Origin) :
    ∃ u', u.add o' (t.fromOrigin o) = .ok u' ∧ u'.name = u.name ∧
      u'.body.DrawnFrom (o :: os) t.body := by
  obtain ⟨body, added, drawn⟩ := h.add_fromOrigin fresh o'
  have kind : u.kind = (t.fromOrigin o).contents.kind := by
    rw [kind_contents_fromOrigin]
    exact h.kind_eq
  have contents : (t.fromOrigin o).contents = t.body.fromOrigin o := rfl
  refine ⟨{ u with
    directives := u.directives ++ Sourced.allFrom o' (t.fromOrigin o).directives
    body := body }, ?_, rfl, drawn⟩
  rw [add, if_pos kind, contents, added]

/-- The extensions of a type can be added to what is drawn from other places of it. -/
theorem extendAll_fromOrigin
    {places : List Origin}
    (h : u.body.DrawnFrom os t.body)
    (distinct : places.Nodup)
    (fresh : places.Disjoint os)
    (index : Nat) :
    ∃ u', u.extendAll index (places.map t.fromOrigin) = .ok u' ∧ u'.name = u.name := by
  induction places generalizing os u index with
  | nil => exact ⟨u, rfl, rfl⟩
  | cons o places ih =>
      rw [List.nodup_cons] at distinct
      rw [List.disjoint_cons_left] at fresh
      obtain ⟨u₁, added, named, drawn⟩ := add_fromOrigin h fresh.1 (.extension index)
      obtain ⟨u', rest, named'⟩ := ih drawn distinct.2
        (List.disjoint_cons_right.mpr ⟨distinct.1, fresh.2⟩) (index + 1)
      refine ⟨u', ?_, named'.trans named⟩
      rw [List.map_cons, extendAll, added]
      exact rest

/-- What adding extensions leaves as it was. -/
theorem extendAll_eq_ok
    {index : Nat}
    {es : List TypeText}
    (h : t.extendAll index es = .ok u) :
    u.name = t.name ∧ u.builtIn = t.builtIn ∧
      ∀ os b, TypeBody.DrawnFrom os b t.body → TypeBody.DrawnFrom os b u.body := by
  induction es generalizing t index with
  | nil =>
      cases h
      exact ⟨rfl, rfl, fun _ _ drawn => drawn⟩
  | cons e es ih =>
      cases added : t.add (.extension index) e with
      | error err =>
          rw [extendAll, added] at h
          cases h
      | ok t₁ =>
          rw [extendAll, added] at h
          obtain ⟨named, builtIn, drawn⟩ := ih h
          obtain ⟨body, added', rfl⟩ := add_eq_ok added
          exact ⟨named, builtIn, fun os b hb => drawn os b (hb.of_add added')⟩

end TypeDef

end Types

section Definitions

theorem map_filterMap_sublist
    {α β : Type}
    {f : α → Option β}
    {g : β → α}
    (h : ∀ x y, f x = some y → g y = x)
    (xs : List α) :
    ((xs.filterMap f).map g).Sublist xs := by
  induction xs with
  | nil => exact .slnil
  | cons x xs ih =>
      cases hx : f x with
      | none => simpa [List.filterMap_cons, hx] using ih.cons x
      | some y => simpa [List.filterMap_cons, hx, h x y hx] using ih

namespace SchemaDef

variable {d d' : SchemaDef}

theorem root_withRoot
    (d : SchemaDef)
    (k : OperationKind)
    (r : Sourced Name)
    (k' : OperationKind) :
    (d.withRoot k r).root k' = if k' = k then some r else d.root k' := by
  cases k <;> cases k' <;> rfl

theorem directives_withRoot
    (d : SchemaDef)
    (k : OperationKind)
    (r : Sourced Name) :
    (d.withRoot k r).directives = d.directives := by
  cases k <;> rfl

theorem directives_addRoots
    {o : Origin}
    {rs : List (OperationKind × Name)}
    (h : d.addRoots o rs = .ok d') :
    d'.directives = d.directives := by
  induction rs generalizing d with
  | nil => cases h; rfl
  | cons r rs ih =>
      obtain ⟨k, n⟩ := r
      unfold addRoots at h
      split at h
      · cases h
      · exact (ih h).trans (d.directives_withRoot k _)

/-- Roots of different operations can be declared where there is none of them. -/
theorem addRoots_of_absent
    (o : Origin)
    {rs : List (OperationKind × Name)}
    (distinct : (rs.map Prod.fst).Nodup)
    (absent : ∀ k ∈ rs.map Prod.fst, d.root k = none) :
    ∃ d', d.addRoots o rs = .ok d' ∧
      ∀ k, k ∉ rs.map Prod.fst → d'.root k = d.root k := by
  induction rs generalizing d with
  | nil => exact ⟨d, rfl, fun _ _ => rfl⟩
  | cons r rs ih =>
      obtain ⟨k, n⟩ := r
      rw [List.map_cons, List.nodup_cons] at distinct
      have absent' : ∀ k' ∈ rs.map Prod.fst, (d.withRoot k ⟨o, n⟩).root k' = none := by
        intro k' hk'
        rw [root_withRoot, if_neg (fun e : k' = k => distinct.1 (e ▸ hk'))]
        exact absent k' (List.mem_cons_of_mem k hk')
      obtain ⟨d', added, kept⟩ := ih distinct.2 absent'
      refine ⟨d', by rw [addRoots, absent k List.mem_cons_self]; exact added, ?_⟩
      intro k' hk'
      rw [List.map_cons, List.mem_cons, not_or] at hk'
      rw [kept k' hk'.2, root_withRoot, if_neg hk'.1]

theorem directives_add
    {o : Origin}
    {text : SchemaText}
    (h : d.add o text = .ok d') :
    d'.directives = d.directives ++ Sourced.allFrom o text.directives :=
  directives_addRoots h

theorem applications_extendAll
    {index : Nat}
    {es : List SchemaText}
    (h : d.extendAll index es = .ok d') :
    d'.applications = d.applications ++ es.flatMap SchemaText.directives := by
  induction es generalizing d index with
  | nil => cases h; simp
  | cons e es ih =>
      cases added : d.add (.extension index) e with
      | error err =>
          rw [extendAll, added] at h
          cases h
      | ok d₁ =>
          rw [extendAll, added] at h
          rw [ih h, applications, directives_add added, List.map_append,
            Sourced.map_item_allFrom, List.append_assoc]
          rfl

/-- Every declared root of the first is a root of the second that comes from one of these
places. -/
def RootsDrawnFrom (os : List Origin) (d e : SchemaDef) : Prop :=
  ∀ k, d.root k ≠ none → ∃ r, e.root k = some r ∧ r.origin ∈ os

theorem mem_rootsFrom_iff
    {o : Origin}
    {k : OperationKind}
    {n : Name} :
    (k, n) ∈ d.rootsFrom o ↔ d.root k = some ⟨o, n⟩ := by
  have all : ∀ k : OperationKind, k ∈ OperationKind.all := by
    intro k
    cases k <;> decide
  simp only [rootsFrom, roots, List.mem_filterMap, Option.map_eq_some_iff]
  constructor
  · rintro ⟨⟨k', ⟨o', m⟩⟩, ⟨k'', -, r, hr, e⟩, h⟩
    cases e
    split at h
    · rename_i ho
      cases h
      cases ho
      exact hr
    · cases h
  · intro h
    exact ⟨(k, ⟨o, n⟩), ⟨k, all k, _, h, rfl⟩, by simp⟩

theorem nodup_rootsFrom
    (o : Origin)
    (d : SchemaDef) :
    ((d.rootsFrom o).map Prod.fst).Nodup := by
  have kinds : ((d.rootsFrom o).map Prod.fst).Sublist OperationKind.all := by
    rw [rootsFrom, roots, List.filterMap_filterMap]
    refine map_filterMap_sublist ?_ OperationKind.all
    intro k p h
    obtain ⟨r, hr, h⟩ := Option.bind_eq_some_iff.mp h
    obtain ⟨r, -, rfl⟩ := Option.map_eq_some_iff.mp hr
    split at h
    · cases h
      rfl
    · cases h
  exact kinds.nodup (by decide)

/-- The roots that come from another place can be declared. -/
theorem add_fromOrigin
    {os : List Origin}
    {e : SchemaDef}
    (h : d.RootsDrawnFrom os e)
    {o : Origin}
    (fresh : o ∉ os)
    (o' : Origin) :
    ∃ d', d.add o' (e.fromOrigin o) = .ok d' ∧ d'.RootsDrawnFrom (o :: os) e := by
  have declared : ∀ k ∈ (e.rootsFrom o).map Prod.fst, ∃ n, e.root k = some ⟨o, n⟩ := by
    intro k hk
    obtain ⟨⟨k', n⟩, hr, rfl⟩ := List.mem_map.mp hk
    exact ⟨n, mem_rootsFrom_iff.mp hr⟩
  have absent : ∀ k ∈ (e.rootsFrom o).map Prod.fst, d.root k = none := by
    intro k hk
    by_contra present
    obtain ⟨n, hn⟩ := declared k hk
    obtain ⟨r, hr, hro⟩ := h k present
    rw [hn] at hr
    cases hr
    exact fresh hro
  obtain ⟨d', added, kept⟩ := addRoots_of_absent (d := { d with
    directives := d.directives ++ Sourced.allFrom o' (e.fromOrigin o).directives }) o'
    (nodup_rootsFrom o e) absent
  refine ⟨d', added, fun k present => ?_⟩
  by_cases hk : k ∈ (e.rootsFrom o).map Prod.fst
  · obtain ⟨n, hn⟩ := declared k hk
    exact ⟨_, hn, List.mem_cons_self⟩
  · rw [kept k hk] at present
    obtain ⟨r, hr, hro⟩ := h k present
    exact ⟨r, hr, List.mem_cons_of_mem o hro⟩

/-- The extensions of a schema definition can be added to what is drawn from other places
of it. -/
theorem extendAll_fromOrigin
    {os places : List Origin}
    {e : SchemaDef}
    (h : d.RootsDrawnFrom os e)
    (distinct : places.Nodup)
    (fresh : places.Disjoint os)
    (index : Nat) :
    ∃ d', d.extendAll index (places.map e.fromOrigin) = .ok d' := by
  induction places generalizing os d index with
  | nil => exact ⟨d, rfl⟩
  | cons o places ih =>
      rw [List.nodup_cons] at distinct
      rw [List.disjoint_cons_left] at fresh
      obtain ⟨d₁, added, drawn⟩ := add_fromOrigin h fresh.1 (.extension index)
      obtain ⟨d', rest⟩ := ih drawn distinct.2
        (List.disjoint_cons_right.mpr ⟨distinct.1, fresh.2⟩) (index + 1)
      exact ⟨d', by rw [List.map_cons, extendAll, added]; exact rest⟩

end SchemaDef

end Definitions

end Supergraph
