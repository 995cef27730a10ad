import Supergraph.Fusion.Elision
import Supergraph.Proofs.Target

/-!
# What elision leaves alone, and what it undoes

`Schema.allApplications` lists the applications of a schema at all positions at
which directives can be applied.  Elision leaves a schema as it is if none of them
is hidden (`elide_eq_self`, for every part of a schema).

`Schema.Attached` relates two schemas if the second has one more application than
the first, at the end of any of its lists of applications.  Elision does not see
the difference if the application is a hidden one (`elide_eq_of_attached`).  The
applications that `Schema.attach?` appends are of this kind.
-/

namespace Supergraph

section Applications

/-- The applications on a field and on its arguments. -/
def Field.applications (f : Field) : List Directive :=
  f.directives ++ f.arguments.flatMap InputValue.directives

/-- The applications on the parts of a type. -/
def TypeBody.applications : TypeBody → List Directive
  | .scalar => []
  | .object _ fs => fs.items.flatMap (fun f => f.item.applications)
  | .interface _ fs => fs.items.flatMap (fun f => f.item.applications)
  | .union _ => []
  | .enum vs => vs.items.flatMap (fun v => v.item.directives)
  | .inputObject fs => fs.items.flatMap (fun v => v.item.directives)

/-- The applications on a type and on its parts. -/
def TypeDef.allApplications (t : TypeDef) : List Directive :=
  t.applications ++ t.body.applications

/-- The applications on the arguments of a directive definition. -/
def DirectiveDef.applications (d : DirectiveDef) : List Directive :=
  d.arguments.flatMap InputValue.directives

/-- The applications of a schema, wherever they stand. -/
def Schema.allApplications (s : Schema) : List Directive :=
  s.definition.applications
    ++ s.types.items.flatMap TypeDef.allApplications
    ++ s.directives.items.flatMap DirectiveDef.applications

end Applications

section Lists

variable {α β : Type}

theorem map_eq_self
    {f : α → α}
    {xs : List α}
    (h : ∀ x ∈ xs, f x = x) :
    xs.map f = xs := by
  rw [List.map_congr_left h, List.map_id']

theorem Table.mapValues_eq_self
    [Keyed α]
    {t : Table α}
    {f : α → α}
    {hf : ∀ x, key (f x) = key x}
    (h : ∀ x ∈ t.items, f x = x) :
    t.mapValues f hf = t :=
  Table.ext (map_eq_self h)

/-- The lists differ in one place at most, and there as `R` says. -/
inductive ChangedAt (R : α → α → Prop) : List α → List α → Prop
  | here
      {x y : α}
      {xs : List α}
      (h : R x y) :
      ChangedAt R (x :: xs) (y :: xs)
  | there
      {x : α}
      {xs ys : List α}
      (h : ChangedAt R xs ys) :
      ChangedAt R (x :: xs) (x :: ys)

namespace ChangedAt

variable {R : α → α → Prop} {xs ys : List α}

theorem map_eq
    {f : α → β}
    (h : ChangedAt R xs ys)
    (hf : ∀ x y, R x y → f y = f x) :
    ys.map f = xs.map f := by
  induction h with
  | here h => rw [List.map_cons, List.map_cons, hf _ _ h]
  | there h ih => rw [List.map_cons, List.map_cons, ih]

theorem map_filter_eq
    {f : α → β}
    {p : α → Bool}
    (h : ChangedAt R xs ys)
    (hf : ∀ x y, R x y → f y = f x)
    (hp : ∀ x y, R x y → p y = p x) :
    (ys.filter p).map f = (xs.filter p).map f := by
  induction h with
  | here h =>
      rw [List.filter_cons, List.filter_cons, hp _ _ h]
      split
      · rw [List.map_cons, List.map_cons, hf _ _ h]
      · rfl
  | there h ih =>
      rw [List.filter_cons, List.filter_cons]
      split
      · rw [List.map_cons, List.map_cons, ih]
      · exact ih

/-- Putting a changed value back under its name changes one place. -/
theorem of_lookup
    [Keyed α]
    {k : Name}
    {x y : α}
    (found : lookup k xs = some x)
    (h : R x y)
    (hk : key y = key x) :
    ChangedAt R xs (putInto y xs) := by
  have hx : key x = k := by simpa using List.find?_some found
  induction xs with
  | nil => cases found
  | cons z zs ih =>
      by_cases hz : key z = k
      · have hzx : z = x := by simpa [lookup, hz] using found
        subst hzx
        simp only [putInto, hk, if_true]
        exact .here h
      · have hzy : key z ≠ key y := by rwa [hk, hx]
        have found' : lookup k zs = some x := by simpa [lookup, hz] using found
        simp only [putInto, hzy, if_false]
        exact .there (ih found')

end ChangedAt

end Lists

/-- The parts come from the same place, and are related. -/
def Sourced.Lift
    {α : Type}
    (R : α → α → Prop)
    (x y : Sourced α) :
    Prop :=
  y.origin = x.origin ∧ R x.item y.item

section Attached

/-- An application is appended to an argument or input field. -/
def InputValue.Attached (d : Directive) (v w : InputValue) : Prop :=
  w = v.attach d

/-- An application is appended to an enum value. -/
def EnumValue.Attached (d : Directive) (v w : EnumValue) : Prop :=
  w = { v with directives := v.directives ++ [d] }

/-- An application is appended to a field or to one of its arguments. -/
inductive Field.Attached (d : Directive) : Field → Field → Prop
  | onField
      (f : Field) :
      Attached d f { f with directives := f.directives ++ [d] }
  | onArgument
      {f : Field}
      {as : List InputValue}
      (h : ChangedAt (InputValue.Attached d) f.arguments as) :
      Attached d f { f with arguments := as }

/-- An application is appended to a part of a type. -/
inductive TypeBody.Attached (d : Directive) : TypeBody → TypeBody → Prop
  | objectField
      {is : Table (Sourced Name)}
      {fs gs : Table (Sourced Field)}
      (h : ChangedAt (Sourced.Lift (Field.Attached d)) fs.items gs.items) :
      Attached d (.object is fs) (.object is gs)
  | interfaceField
      {is : Table (Sourced Name)}
      {fs gs : Table (Sourced Field)}
      (h : ChangedAt (Sourced.Lift (Field.Attached d)) fs.items gs.items) :
      Attached d (.interface is fs) (.interface is gs)
  | enumValue
      {vs ws : Table (Sourced EnumValue)}
      (h : ChangedAt (Sourced.Lift (EnumValue.Attached d)) vs.items ws.items) :
      Attached d (.enum vs) (.enum ws)
  | inputField
      {vs ws : Table (Sourced InputValue)}
      (h : ChangedAt (Sourced.Lift (InputValue.Attached d)) vs.items ws.items) :
      Attached d (.inputObject vs) (.inputObject ws)

/-- An application is appended to a type, as part of its definition or of an
extension, or to a part of it. -/
inductive TypeDef.Attached (d : Directive) : TypeDef → TypeDef → Prop
  | onType
      (t : TypeDef)
      (o : Origin) :
      Attached d t { t with directives := t.directives ++ [⟨o, d⟩] }
  | inside
      {t : TypeDef}
      {body : TypeBody}
      (h : t.body.Attached d body) :
      Attached d t { t with body := body }

/-- An application is appended to an argument of a directive definition. -/
inductive DirectiveDef.Attached (d : Directive) : DirectiveDef → DirectiveDef → Prop
  | onArgument
      {x : DirectiveDef}
      {as : List InputValue}
      (h : ChangedAt (InputValue.Attached d) x.arguments as) :
      Attached d x { x with arguments := as }

/-- An application is appended anywhere in a schema. -/
inductive Schema.Attached (d : Directive) : Schema → Schema → Prop
  | onDefinition
      (s : Schema)
      (o : Origin) :
      Attached d s
        { s with
          definition := { s.definition with
            directives := s.definition.directives ++ [⟨o, d⟩] } }
  | onType
      {s : Schema}
      {types : Table TypeDef}
      (h : ChangedAt (TypeDef.Attached d) s.types.items types.items) :
      Attached d s (s.withTypes types)
  | onDirective
      {s : Schema}
      {directives : Table DirectiveDef}
      (h : ChangedAt (DirectiveDef.Attached d) s.directives.items directives.items) :
      Attached d s { s with directives := directives }

end Attached

section Unhidden

variable {hidden : Hidden}

theorem Directive.elideList_eq_self
    {ds : List Directive}
    (h : ∀ d ∈ ds, hidden d.name = false) :
    Directive.elideList hidden ds = ds := by
  refine List.filter_eq_self.mpr ?_
  intro d hd
  rw [h d hd]
  rfl

theorem Directive.elideSourced_eq_self
    {ds : List (Sourced Directive)}
    (h : ∀ d ∈ ds.map Sourced.item, hidden d.name = false) :
    Directive.elideSourced hidden ds = ds := by
  refine List.filter_eq_self.mpr ?_
  intro d hd
  rw [h d.item (List.mem_map_of_mem hd)]
  rfl

theorem InputValue.elide_eq_self
    {v : InputValue}
    (h : ∀ d ∈ v.directives, hidden d.name = false) :
    v.elide hidden = v := by
  rw [InputValue.elide, Directive.elideList_eq_self h]

theorem InputValue.map_elide_eq_self
    {vs : List InputValue}
    (h : ∀ d ∈ vs.flatMap InputValue.directives, hidden d.name = false) :
    vs.map (InputValue.elide hidden) = vs :=
  map_eq_self fun v hv =>
    InputValue.elide_eq_self fun d hd => h d (List.mem_flatMap.mpr ⟨v, hv, hd⟩)

theorem EnumValue.elide_eq_self
    {v : EnumValue}
    (h : ∀ d ∈ v.directives, hidden d.name = false) :
    v.elide hidden = v := by
  rw [EnumValue.elide, Directive.elideList_eq_self h]

theorem Field.elide_eq_self
    {f : Field}
    (h : ∀ d ∈ f.applications, hidden d.name = false) :
    f.elide hidden = f := by
  have own := Directive.elideList_eq_self fun d hd => h d (List.mem_append_left _ hd)
  have arguments := InputValue.map_elide_eq_self fun d hd => h d (List.mem_append_right _ hd)
  rw [Field.elide, own, arguments]

theorem TypeBody.elide_eq_self
    {b : TypeBody}
    (h : ∀ d ∈ b.applications, hidden d.name = false) :
    b.elide hidden = b := by
  cases b with
  | scalar => rfl
  | union ms => rfl
  | object is fs =>
      refine congrArg (TypeBody.object is) (Table.mapValues_eq_self fun f hf => ?_)
      rw [Field.elide_eq_self fun d hd => h d (List.mem_flatMap.mpr ⟨f, hf, hd⟩)]
  | interface is fs =>
      refine congrArg (TypeBody.interface is) (Table.mapValues_eq_self fun f hf => ?_)
      rw [Field.elide_eq_self fun d hd => h d (List.mem_flatMap.mpr ⟨f, hf, hd⟩)]
  | enum vs =>
      refine congrArg TypeBody.enum (Table.mapValues_eq_self fun v hv => ?_)
      rw [EnumValue.elide_eq_self fun d hd => h d (List.mem_flatMap.mpr ⟨v, hv, hd⟩)]
  | inputObject vs =>
      refine congrArg TypeBody.inputObject (Table.mapValues_eq_self fun v hv => ?_)
      rw [InputValue.elide_eq_self fun d hd => h d (List.mem_flatMap.mpr ⟨v, hv, hd⟩)]

theorem TypeDef.elide_eq_self
    {t : TypeDef}
    (h : ∀ d ∈ t.allApplications, hidden d.name = false) :
    t.elide hidden = t := by
  have own := Directive.elideSourced_eq_self fun d hd => h d (List.mem_append_left _ hd)
  have parts := TypeBody.elide_eq_self fun d hd => h d (List.mem_append_right _ hd)
  rw [TypeDef.elide, own, parts]

theorem DirectiveDef.elide_eq_self
    {x : DirectiveDef}
    (h : ∀ d ∈ x.applications, hidden d.name = false) :
    x.elide hidden = x := by
  rw [DirectiveDef.elide, InputValue.map_elide_eq_self h]

theorem SchemaDef.elide_eq_self
    {x : SchemaDef}
    (h : ∀ d ∈ x.applications, hidden d.name = false) :
    x.elide hidden = x := by
  rw [SchemaDef.elide, Directive.elideSourced_eq_self h]

/-- Hiding fewer applications first makes no difference. -/
theorem SchemaDef.elide_elide
    {hidden' : Hidden}
    (h : ∀ n, hidden n = true → hidden' n = true)
    (x : SchemaDef) :
    (x.elide hidden).elide hidden' = x.elide hidden' := by
  simp only [SchemaDef.elide, Directive.elideSourced, List.filter_filter]
  congr 1
  refine List.filter_congr fun d _ => ?_
  cases hd : hidden d.item.name with
  | false => simp
  | true => simp [h _ hd]

end Unhidden

section AttachedElision

variable {hidden : Hidden} {d : Directive}

theorem Directive.elideList_append
    (hd : hidden d.name = true)
    (ds : List Directive) :
    Directive.elideList hidden (ds ++ [d]) = Directive.elideList hidden ds := by
  simp [Directive.elideList, hd]

theorem Directive.elideSourced_append
    (hd : hidden d.name = true)
    (ds : List (Sourced Directive))
    (o : Origin) :
    Directive.elideSourced hidden (ds ++ [⟨o, d⟩]) = Directive.elideSourced hidden ds := by
  simp [Directive.elideSourced, hd]

theorem InputValue.elide_eq_of_attached
    (hd : hidden d.name = true)
    {v w : InputValue}
    (h : v.Attached d w) :
    w.elide hidden = v.elide hidden := by
  subst h
  simp only [InputValue.elide, InputValue.attach, Directive.elideList_append hd]

theorem EnumValue.elide_eq_of_attached
    (hd : hidden d.name = true)
    {v w : EnumValue}
    (h : v.Attached d w) :
    w.elide hidden = v.elide hidden := by
  subst h
  simp only [EnumValue.elide, Directive.elideList_append hd]

theorem Field.elide_eq_of_attached
    (hd : hidden d.name = true)
    {f g : Field}
    (h : f.Attached d g) :
    g.elide hidden = f.elide hidden := by
  cases h with
  | onField => simp only [Field.elide, Directive.elideList_append hd]
  | onArgument h =>
      have arguments := h.map_eq fun _ _ hxy => InputValue.elide_eq_of_attached hd hxy
      simp only [Field.elide, arguments]

/-- What holds of a part holds of it in its place. -/
theorem Sourced.elide_eq_of_lift
    {α : Type}
    {R : α → α → Prop}
    {f : α → α}
    (hf : ∀ x y, R x y → f y = f x)
    (x y : Sourced α)
    (h : Sourced.Lift R x y) :
    (⟨y.origin, f y.item⟩ : Sourced α) = ⟨x.origin, f x.item⟩ := by
  rw [h.1, hf _ _ h.2]

theorem TypeBody.elide_eq_of_attached
    (hd : hidden d.name = true)
    {b c : TypeBody}
    (h : b.Attached d c) :
    c.elide hidden = b.elide hidden := by
  cases h with
  | objectField h =>
      refine congrArg (TypeBody.object _) (Table.ext (h.map_eq ?_))
      exact Sourced.elide_eq_of_lift (fun _ _ => Field.elide_eq_of_attached hd)
  | interfaceField h =>
      refine congrArg (TypeBody.interface _) (Table.ext (h.map_eq ?_))
      exact Sourced.elide_eq_of_lift (fun _ _ => Field.elide_eq_of_attached hd)
  | enumValue h =>
      refine congrArg TypeBody.enum (Table.ext (h.map_eq ?_))
      exact Sourced.elide_eq_of_lift (fun _ _ => EnumValue.elide_eq_of_attached hd)
  | inputField h =>
      refine congrArg TypeBody.inputObject (Table.ext (h.map_eq ?_))
      exact Sourced.elide_eq_of_lift (fun _ _ => InputValue.elide_eq_of_attached hd)

theorem TypeDef.elide_eq_of_attached
    (hd : hidden d.name = true)
    {t u : TypeDef}
    (h : t.Attached d u) :
    u.elide hidden = t.elide hidden := by
  cases h with
  | onType o => simp only [TypeDef.elide, Directive.elideSourced_append hd]
  | inside h => simp only [TypeDef.elide, TypeBody.elide_eq_of_attached hd h]

theorem TypeDef.name_eq_of_attached
    {t u : TypeDef}
    (h : t.Attached d u) :
    u.name = t.name := by
  cases h <;> rfl

theorem DirectiveDef.elide_eq_of_attached
    (hd : hidden d.name = true)
    {x y : DirectiveDef}
    (h : x.Attached d y) :
    y.elide hidden = x.elide hidden := by
  cases h with
  | onArgument h =>
      have arguments := h.map_eq fun _ _ hxy => InputValue.elide_eq_of_attached hd hxy
      simp only [DirectiveDef.elide, arguments]

theorem DirectiveDef.name_eq_of_attached
    {x y : DirectiveDef}
    (h : x.Attached d y) :
    y.name = x.name := by
  cases h
  rfl

end AttachedElision

namespace Schema

variable {hiddenType hidden : Hidden} {d : Directive}

/-- Elision does not see a hidden application, wherever it is attached. -/
theorem elide_eq_of_attached
    (hd : hidden d.name = true)
    {s s' : Schema}
    (h : s.Attached d s') :
    s'.elide hiddenType hidden = s.elide hiddenType hidden := by
  cases h with
  | onDefinition o =>
      refine Schema.ext ?_ rfl rfl rfl
      simp only [elide, SchemaDef.elide, Directive.elideSourced_append hd]
  | @onType types h =>
      have hkeys : types.keys = s.types.keys :=
        h.map_eq fun _ _ hxy => TypeDef.name_eq_of_attached hxy
      have hintro : (s.withTypes types).introspection = s.introspection :=
        introspection_withTypes (fun n hn => hkeys ▸ hn)
      have htypes : ((s.withTypes types).elide hiddenType hidden).types =
          (s.elide hiddenType hidden).types :=
        Table.ext <| h.map_filter_eq
          (fun _ _ hxy => TypeDef.elide_eq_of_attached hd hxy)
          (fun _ _ hxy => by rw [TypeDef.name_eq_of_attached hxy])
      refine Schema.ext rfl rfl htypes ?_
      show Table.present _ (s.withTypes types).introspection = Table.present _ s.introspection
      rw [hintro]
      exact congrArg (fun ts : Table TypeDef => ts.present s.introspection) htypes
  | onDirective h =>
      refine Schema.ext rfl (Table.ext ?_) rfl rfl
      exact h.map_filter_eq
        (fun _ _ hxy => DirectiveDef.elide_eq_of_attached hd hxy)
        (fun _ _ hxy => by rw [DirectiveDef.name_eq_of_attached hxy])

end Schema

section Sites

variable {d : Directive}

theorem InputValue.changedAt_of_attachIn?
    {n : Name}
    {vs ws : List InputValue}
    (h : InputValue.attachIn? d n vs = some ws) :
    ChangedAt (InputValue.Attached d) vs ws := by
  obtain ⟨v, hv, rfl⟩ := Option.map_eq_some_iff.mp h
  exact ChangedAt.of_lookup hv rfl rfl

theorem Field.attached_of_attachToFieldArgument?
    {n : Name}
    {f g : Sourced Field}
    (h : TypeBody.attachToFieldArgument? d n f = some g) :
    key g = key f ∧ Sourced.Lift (Field.Attached d) f g := by
  obtain ⟨as, has, rfl⟩ := Option.map_eq_some_iff.mp h
  exact ⟨rfl, rfl, .onArgument (InputValue.changedAt_of_attachIn? has)⟩

theorem TypeBody.attached_of_attachToField?
    {n : Name}
    {b c : TypeBody}
    (h : b.attachToField? d n = some c) :
    b.Attached d c := by
  cases b with
  | scalar => cases h
  | union ms => cases h
  | object is fs =>
      obtain ⟨f, hf, rfl⟩ := Option.map_eq_some_iff.mp h
      exact .objectField (ChangedAt.of_lookup hf ⟨rfl, .onField f.item⟩ rfl)
  | interface is fs =>
      obtain ⟨f, hf, rfl⟩ := Option.map_eq_some_iff.mp h
      exact .interfaceField (ChangedAt.of_lookup hf ⟨rfl, .onField f.item⟩ rfl)
  | enum vs =>
      obtain ⟨v, hv, rfl⟩ := Option.map_eq_some_iff.mp h
      exact .enumValue (ChangedAt.of_lookup hv ⟨rfl, rfl⟩ rfl)
  | inputObject vs =>
      obtain ⟨v, hv, rfl⟩ := Option.map_eq_some_iff.mp h
      exact .inputField (ChangedAt.of_lookup hv ⟨rfl, rfl⟩ rfl)

theorem TypeBody.attached_of_attachToArgument?
    {n a : Name}
    {b c : TypeBody}
    (h : b.attachToArgument? d n a = some c) :
    b.Attached d c := by
  cases b with
  | object is fs =>
      obtain ⟨f, hf, h⟩ := Option.bind_eq_some_iff.mp h
      obtain ⟨g, hg, hc⟩ := Option.bind_eq_some_iff.mp h
      cases hc
      obtain ⟨hk, lift⟩ := Field.attached_of_attachToFieldArgument? hg
      exact .objectField (ChangedAt.of_lookup hf lift hk)
  | interface is fs =>
      obtain ⟨f, hf, h⟩ := Option.bind_eq_some_iff.mp h
      obtain ⟨g, hg, hc⟩ := Option.bind_eq_some_iff.mp h
      cases hc
      obtain ⟨hk, lift⟩ := Field.attached_of_attachToFieldArgument? hg
      exact .interfaceField (ChangedAt.of_lookup hf lift hk)
  | scalar => cases h
  | union ms => cases h
  | enum vs => cases h
  | inputObject vs => cases h

theorem Schema.attached_of_withBody?
    {s s' : Schema}
    {n : Name}
    {change : TypeBody → Option TypeBody}
    (hchange : ∀ b c, change b = some c → b.Attached d c)
    (h : s.withBody? n change = some s') :
    s.Attached d s' := by
  obtain ⟨t, ht, h⟩ := Option.bind_eq_some_iff.mp h
  obtain ⟨body, hbody, hs⟩ := Option.bind_eq_some_iff.mp h
  cases hs
  exact .onType (ChangedAt.of_lookup ht (.inside (hchange _ _ hbody)) rfl)

/-- Whatever is attached by the path to an element is attached. -/
theorem Schema.attached_of_attach?
    {s s' : Schema}
    {site : Site}
    (h : s.attach? d site = some s') :
    s.Attached d s' := by
  cases site with
  | schema =>
      cases h
      exact .onDefinition s .definition
  | type n =>
      obtain ⟨t, ht, hs⟩ := Option.bind_eq_some_iff.mp h
      cases hs
      exact .onType (ChangedAt.of_lookup ht (.onType t .definition) rfl)
  | field n m =>
      exact attached_of_withBody? (fun _ _ => TypeBody.attached_of_attachToField?) h
  | argument n m a =>
      exact attached_of_withBody? (fun _ _ => TypeBody.attached_of_attachToArgument?) h
  | directiveArgument n a =>
      obtain ⟨x, hx, h⟩ := Option.bind_eq_some_iff.mp h
      obtain ⟨as, has, hs⟩ := Option.bind_eq_some_iff.mp h
      cases hs
      exact .onDirective
        (ChangedAt.of_lookup hx (.onArgument (InputValue.changedAt_of_attachIn? has)) rfl)

end Sites

end Supergraph
