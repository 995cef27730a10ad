import Supergraph.Proofs.Elision
import Supergraph.Proofs.Validity.Unapplied

/-!
# Places for applications

A `Place` is what the rules for applications see of an element of a schema: its location,
and what is applied to it.  Appending an application to the schema, to an object type or
to a field changes the place of that element and no other such place
(`place?_attach_self`, `place?_attach_of_ne`); the rules for applications then ask for the
new one to fit and, unless it may be repeated, to be the first of its name
(`allApplicationsFit_attach`).
-/

namespace Supergraph

/-- An element that directives are applied to, as far as the rules see it. -/
structure Place where
  location : Location
  applications : List Directive
  deriving DecidableEq

namespace Place

/-- How often a directive is applied here. -/
def count (p : Place) (n : Name) : Nat :=
  p.applications.countP (fun d => d.name == n)

/-- The place with one more application. -/
def attach (d : Directive) (p : Place) : Place :=
  { p with applications := p.applications ++ [d] }

theorem count_attach
    (d : Directive)
    (p : Place)
    (n : Name) :
    (p.attach d).count n = p.count n + if d.name = n then 1 else 0 := by
  simp [count, attach, List.countP_cons]

end Place

/-- What stands here says what comes out of a schema: no argument is of such a type. -/
def Location.isOutput : Location → Bool
  | .schema => true
  | .object => true
  | .fieldDefinition => true
  | _ => false

namespace TypeBody

/-- The field of this name. -/
def field? (n : Name) : TypeBody → Option Field
  | .object _ fs => (fs.get? n).map Sourced.item
  | .interface _ fs => (fs.get? n).map Sourced.item
  | _ => none

/-- The place of a field or enum value. -/
def place? (n : Name) : TypeBody → Option Place
  | .object _ fs => (fs.get? n).map fun f => ⟨.fieldDefinition, f.item.directives⟩
  | .interface _ fs => (fs.get? n).map fun f => ⟨.fieldDefinition, f.item.directives⟩
  | .enum vs => (vs.get? n).map fun v => ⟨.enumValue, v.item.directives⟩
  | .inputObject vs => (vs.get? n).map fun v => ⟨.inputFieldDefinition, v.item.directives⟩
  | .scalar => none
  | .union _ => none

end TypeBody

/-- The place of an argument. -/
def InputValue.place? (n : Name) (vs : List InputValue) : Option Place :=
  (lookup n vs).map fun v => ⟨.argumentDefinition, v.directives⟩

namespace Schema

/-- The place of an element, if there is such an element. -/
def place? (s : Schema) : Site → Option Place
  | .schema => some ⟨.schema, s.definition.applications⟩
  | .type n => (s.type? n).map fun t => ⟨t.kind.location, t.applications⟩
  | .field n f => (s.type? n).bind fun t => t.body.place? f
  | .argument n f a =>
      ((s.type? n).bind fun t => t.body.field? f).bind fun f => InputValue.place? a f.arguments
  | .directiveArgument n a => (s.directive? n).bind fun d => InputValue.place? a d.arguments

/-- The definition of the directive lists the location of the element. -/
def Declares (s : Schema) (x : Site) (n : Name) : Prop :=
  ∃ p d, s.place? x = some p ∧ s.directive? n = some d ∧ p.location ∈ d.locations

/-- How often a directive is applied to an element. -/
def count (s : Schema) (x : Site) (n : Name) : Nat :=
  (s.place? x).elim 0 (fun p => p.count n)

end Schema

section Tables

variable {α : Type} [Keyed α]

theorem all_putInto
    {x y : α}
    {xs : List α}
    {p : α → Bool}
    {b : Bool}
    (found : lookup (key x) xs = some y)
    (hp : p x = (p y && b)) :
    (putInto x xs).all p = (xs.all p && b) := by
  induction xs with
  | nil => cases found
  | cons z zs ih =>
      by_cases hzx : key z = key x
      · obtain rfl : z = y := by simpa [lookup, hzx] using found
        simp only [putInto, hzx, if_true, List.all_cons, hp, Bool.and_right_comm]
      · have found' : lookup (key x) zs = some y := by simpa [lookup, hzx] using found
        simp only [putInto, hzx, if_false, List.all_cons, ih found', Bool.and_assoc]

/-- If the new value has a property exactly when the old one of its name has it and `b`
holds, so do all values. -/
theorem Table.all_put
    {t : Table α}
    {x y : α}
    {p : α → Bool}
    {b : Bool}
    (found : t.get? (key x) = some y)
    (hp : p x = (p y && b)) :
    (t.put x).items.all p = (t.items.all p && b) :=
  all_putInto found hp

end Tables

section Attached

/-- The schema definition with one more application. -/
def SchemaDef.attach (d : Directive) (x : SchemaDef) : SchemaDef :=
  { x with directives := x.directives ++ [⟨.definition, d⟩] }

@[simp] theorem SchemaDef.applications_attach
    (d : Directive)
    (x : SchemaDef) :
    (x.attach d).applications = x.applications ++ [d] := by
  simp [applications, attach]

/-- A type with one more application on itself. -/
def TypeDef.attach (d : Directive) (t : TypeDef) : TypeDef :=
  { t with directives := t.directives ++ [⟨.definition, d⟩] }

@[simp] theorem TypeDef.name_attach
    (d : Directive)
    (t : TypeDef) :
    (t.attach d).name = t.name :=
  rfl

@[simp] theorem TypeDef.kind_attach
    (d : Directive)
    (t : TypeDef) :
    (t.attach d).kind = t.kind :=
  rfl

@[simp] theorem TypeDef.body_attach
    (d : Directive)
    (t : TypeDef) :
    (t.attach d).body = t.body :=
  rfl

@[simp] theorem TypeDef.applications_attach
    (d : Directive)
    (t : TypeDef) :
    (t.attach d).applications = t.applications ++ [d] := by
  simp [applications, attach]

/-- A type with another body. -/
def TypeDef.withBody (b : TypeBody) (t : TypeDef) : TypeDef :=
  { t with body := b }

@[simp] theorem TypeDef.name_withBody
    (b : TypeBody)
    (t : TypeDef) :
    (t.withBody b).name = t.name :=
  rfl

@[simp] theorem TypeDef.kind_withBody
    (b : TypeBody)
    (t : TypeDef) :
    (t.withBody b).kind = b.kind :=
  rfl

@[simp] theorem TypeDef.body_withBody
    (b : TypeBody)
    (t : TypeDef) :
    (t.withBody b).body = b :=
  rfl

@[simp] theorem TypeDef.applications_withBody
    (b : TypeBody)
    (t : TypeDef) :
    (t.withBody b).applications = t.applications :=
  rfl

/-- A field with one more application. -/
def Field.attach (d : Directive) (f : Field) : Field :=
  { f with directives := f.directives ++ [d] }

end Attached

section Fields

/-- The bodies of objects or of interfaces, with the same interfaces and any fields. -/
inductive TypeBody.Composite : (Table (Sourced Field) → TypeBody) → Prop
  | object (is : Table (Sourced Name)) : Composite (.object is)
  | interface (is : Table (Sourced Name)) : Composite (.interface is)

namespace TypeBody.Composite

variable {make : Table (Sourced Field) → TypeBody} {fs : Table (Sourced Field)}

theorem isInput_kind
    (h : Composite make)
    (t : TypeDef)
    (body : t.body = make fs) :
    t.isInput = false := by
  cases h <;> simp [TypeDef.isInput, TypeDef.kind, body, TypeBody.kind]

theorem kind_eq
    (h : Composite make)
    (gs : Table (Sourced Field)) :
    (make fs).kind = (make gs).kind := by
  cases h <;> rfl

theorem place?_eq
    (h : Composite make)
    (m : Name) :
    (make fs).place? m = (fs.get? m).map fun f => ⟨.fieldDefinition, f.item.directives⟩ := by
  cases h <;> rfl

theorem field?_eq
    (h : Composite make)
    (m : Name) :
    (make fs).field? m = (fs.get? m).map Sourced.item := by
  cases h <;> rfl

theorem fields_eq
    (h : Composite make) :
    (make fs).fields = fs.items.map Sourced.item := by
  cases h <;> rfl

theorem values_eq
    (h : Composite make) :
    (make fs).values = [] := by
  cases h <;> rfl

theorem inputFields_eq
    (h : Composite make) :
    (make fs).inputFields = [] := by
  cases h <;> rfl

theorem attachToField?_eq
    (h : Composite make)
    {f : Sourced Field}
    (found : fs.get? (key f) = some f)
    (d : Directive) :
    (make fs).attachToField? d (key f) = some (make (fs.put (f.map (Field.attach d)))) := by
  cases h <;> rw [attachToField?, found] <;> rfl

/-- Fields come out of objects and interfaces, and of nothing else. -/
theorem exists_of_place?
    {b : TypeBody}
    {m : Name}
    {p : Place}
    (found : b.place? m = some p)
    (output : p.location.isOutput = true) :
    ∃ make fs f, Composite make ∧ b = make fs ∧ fs.get? (key f) = some f ∧ key f = m ∧
      p = ⟨.fieldDefinition, f.item.directives⟩ := by
  cases b with
  | scalar => cases found
  | union ms => cases found
  | object is fs =>
      obtain ⟨f, hf, rfl⟩ := Option.map_eq_some_iff.mp found
      obtain rfl : key f = m := (Table.get?_eq_some_iff.mp hf).2
      exact ⟨_, fs, f, .object is, rfl, hf, rfl, rfl⟩
  | interface is fs =>
      obtain ⟨f, hf, rfl⟩ := Option.map_eq_some_iff.mp found
      obtain rfl : key f = m := (Table.get?_eq_some_iff.mp hf).2
      exact ⟨_, fs, f, .interface is, rfl, hf, rfl, rfl⟩
  | enum vs =>
      obtain ⟨v, -, rfl⟩ := Option.map_eq_some_iff.mp found
      cases output
  | inputObject vs =>
      obtain ⟨v, -, rfl⟩ := Option.map_eq_some_iff.mp found
      cases output

end TypeBody.Composite

end Fields

namespace Schema

section Reading

theorem type?_put_self
    (s : Schema)
    (t : TypeDef) :
    (s.withTypes (s.types.put t)).type? t.name = some t :=
  Table.get?_put_self s.types t

theorem type?_put_of_ne
    {s : Schema}
    {t : TypeDef}
    {n : Name}
    (h : n ≠ t.name) :
    (s.withTypes (s.types.put t)).type? n = s.type? n :=
  Table.get?_put_of_ne h

theorem withBody?_eq_some
    {s : Schema}
    {n : Name}
    {t : TypeDef}
    {b : TypeBody}
    {change : TypeBody → Option TypeBody}
    (defined : s.type? n = some t)
    (changed : change t.body = some b) :
    s.withBody? n change = some (s.withTypes (s.types.put (t.withBody b))) := by
  simp [withBody?, TypeDef.withBody, defined, changed]

/-- A place inside a type that takes the place of another one is what it was, if it is the
same inside the two types. -/
theorem place?_put
    {s : Schema}
    {t u : TypeDef}
    {y : Site}
    (defined : s.type? t.name = some t)
    (named : u.name = t.name)
    (whole : y = .type t.name → u.kind = t.kind ∧ u.applications = t.applications)
    (fields : ∀ m, y = .field t.name m → u.body.place? m = t.body.place? m)
    (arguments : ∀ m, (u.body.field? m).map Field.arguments = (t.body.field? m).map Field.arguments) :
    (s.withTypes (s.types.put u)).place? y = s.place? y := by
  have now : (s.withTypes (s.types.put u)).type? t.name = some u := by
    rw [← named]
    exact type?_put_self s u
  have apart : ∀ {n}, n ≠ t.name → (s.withTypes (s.types.put u)).type? n = s.type? n := by
    intro n hn
    exact type?_put_of_ne (by rwa [named])
  cases y with
  | schema => rfl
  | directiveArgument n a => rfl
  | type n =>
      by_cases hn : n = t.name
      · subst hn
        obtain ⟨kind, applications⟩ := whole rfl
        simp only [place?, now, defined, Option.map_some, kind, applications]
      · simp only [place?, apart hn]
  | field n m =>
      by_cases hn : n = t.name
      · subst hn
        simp only [place?, now, defined, Option.bind_some, fields m rfl]
      · simp only [place?, apart hn]
  | argument n m a =>
      by_cases hn : n = t.name
      · subst hn
        have same := congrArg (fun vs => vs.bind (InputValue.place? a)) (arguments m)
        simp only [Option.bind_map] at same
        simp only [place?, now, defined, Option.bind_some]
        exact same
      · simp only [place?, apart hn]

end Reading

/-- An application is appended to the schema, to an object type, or to a field of an object
or interface. -/
inductive Gains (d : Directive) (s : Schema) : Site → Place → Schema → Prop
  | onSchema :
      Gains d s .schema ⟨.schema, s.definition.applications⟩
        { s with definition := s.definition.attach d }
  | onType
      {t : TypeDef}
      (defined : s.type? t.name = some t)
      (object : t.kind = .object) :
      Gains d s (.type t.name) ⟨t.kind.location, t.applications⟩
        (s.withTypes (s.types.put (t.attach d)))
  | onField
      {t : TypeDef}
      {make : Table (Sourced Field) → TypeBody}
      {fs : Table (Sourced Field)}
      {f : Sourced Field}
      (defined : s.type? t.name = some t)
      (composite : TypeBody.Composite make)
      (body : t.body = make fs)
      (found : fs.get? (key f) = some f) :
      Gains d s (.field t.name (key f)) ⟨.fieldDefinition, f.item.directives⟩
        (s.withTypes (s.types.put (t.withBody (make (fs.put (f.map (Field.attach d)))))))

/-- Where something comes out of a schema, every application can be appended. -/
theorem gains_of_place?
    {s : Schema}
    {x : Site}
    {p : Place}
    (d : Directive)
    (found : s.place? x = some p)
    (output : p.location.isOutput = true) :
    ∃ s', s.attach? d x = some s' ∧ s.Gains d x p s' := by
  cases x with
  | schema =>
      cases found
      exact ⟨_, rfl, .onSchema⟩
  | type n =>
      obtain ⟨t, ht, rfl⟩ := Option.map_eq_some_iff.mp found
      obtain rfl : t.name = n := (Table.get?_eq_some_iff.mp ht).2
      have object : t.kind = .object := by
        cases hk : t.kind <;> rw [hk] at output <;> first | rfl | cases output
      exact ⟨_, by rw [attach?, ht]; rfl, .onType ht object⟩
  | field n m =>
      obtain ⟨t, ht, hm⟩ := Option.bind_eq_some_iff.mp found
      obtain rfl : t.name = n := (Table.get?_eq_some_iff.mp ht).2
      obtain ⟨make, fs, f, composite, body, hf, rfl, rfl⟩ :=
        TypeBody.Composite.exists_of_place? hm output
      have changed := composite.attachToField?_eq hf d
      rw [← body] at changed
      exact ⟨_, withBody?_eq_some ht changed, .onField ht composite body hf⟩
  | argument n m a =>
      obtain ⟨f, -, ha⟩ := Option.bind_eq_some_iff.mp found
      obtain ⟨v, -, rfl⟩ := Option.map_eq_some_iff.mp ha
      cases output
  | directiveArgument n a =>
      obtain ⟨e, -, ha⟩ := Option.bind_eq_some_iff.mp found
      obtain ⟨v, -, rfl⟩ := Option.map_eq_some_iff.mp ha
      cases output

namespace Gains

variable {d : Directive} {s s' : Schema} {x : Site} {p : Place}

theorem directives_eq
    (h : s.Gains d x p s') :
    s'.directives = s.directives := by
  cases h <;> rfl

/-- The types that arguments may be of stay as they are. -/
theorem type?_of_isInput
    (h : s.Gains d x p s')
    {n : Name}
    {t : TypeDef}
    (defined : s.type? n = some t)
    (input : t.isInput = true) :
    s'.type? n = some t := by
  have apart : ∀ {u w : TypeDef}, s.type? u.name = some u → u.isInput = false → w.name = u.name →
      (s.withTypes (s.types.put w)).type? n = some t := by
    intro u w hu output hw
    have hn : n ≠ w.name := by
      rintro rfl
      rw [hw, hu] at defined
      cases defined
      rw [output] at input
      cases input
    exact (type?_put_of_ne hn).trans defined
  cases h with
  | onSchema => exact defined
  | onType hu object => exact apart hu (by simp [TypeDef.isInput, object]) rfl
  | onField hu composite body => exact apart hu (composite.isInput_kind _ body) rfl

/-- No other place changes. -/
theorem place?_of_ne
    (h : s.Gains d x p s')
    {y : Site}
    (hy : y ≠ x) :
    s'.place? y = s.place? y := by
  cases h with
  | onSchema =>
      cases y with
      | schema => exact absurd rfl hy
      | _ => rfl
  | onType defined object =>
      exact place?_put defined rfl (fun e => absurd e hy) (fun _ _ => rfl) (fun _ => rfl)
  | @onField t make fs f defined composite body found =>
      refine place?_put defined rfl (fun _ => ⟨?_, rfl⟩) (fun m e => ?_) (fun m => ?_)
      · rw [TypeDef.kind, TypeDef.kind, TypeDef.body_withBody, body]
        exact composite.kind_eq _
      · have hm : m ≠ key (f.map (Field.attach d)) := by
          rintro rfl
          exact hy e
        simp only [body, TypeDef.body_withBody, composite.place?_eq, Table.get?_put_of_ne hm]
      · simp only [body, TypeDef.body_withBody, composite.field?_eq]
        by_cases hm : m = key (f.map (Field.attach d))
        · have now := Table.get?_put_self fs (f.map (Field.attach d))
          have before : fs.get? (key (f.map (Field.attach d))) = some f := found
          rw [hm, now, before]
          rfl
        · rw [Table.get?_put_of_ne hm]

theorem place?_self
    (h : s.Gains d x p s') :
    s'.place? x = some (p.attach d) := by
  cases h with
  | onSchema => simp [place?, Place.attach]
  | @onType t defined object =>
      rw [place?, ← t.name_attach d, type?_put_self s (t.attach d)]
      simp [Place.attach]
  | @onField t make fs f defined composite body found =>
      have field : (fs.put (f.map (Field.attach d))).get? (key f) = some (f.map (Field.attach d)) :=
        Table.get?_put_self _ _
      rw [place?, ← t.name_withBody _, type?_put_self s (t.withBody _)]
      simp only [Option.bind_some, TypeDef.body_withBody, composite.place?_eq, field]
      rfl

end Gains

end Schema

end Supergraph
