import Supergraph.Document.Reading
import Supergraph.Schema.Assembly

/-!
# Readable definitions

What a reader can give: values whose nesting is within the limit and that have no
variables, type references within the limit, enum values that are no reserved words,
directives with locations.
-/

namespace Supergraph

namespace Value

/-- The value can be read if what is inside of it can. -/
def ReadableWith (constant : Bool) (inner : Value → Prop) : Value → Prop
  | .enum n => ofName n = .enum n
  | .var _ => constant = false
  | .list items => ∀ v ∈ items, inner v
  | .object fields => ∀ f ∈ fields, inner f.2
  | _ => True

/-- The value can be read with a limit to its nesting. -/
def ReadableWithin (constant : Bool) : Nat → Value → Prop
  | 0 => ReadableWith constant (fun _ => False)
  | depth + 1 => ReadableWith constant (ReadableWithin constant depth)

/-- The value can stand in a definition. -/
def Readable (v : Value) : Prop :=
  v.ReadableWithin true Reader.maxNesting

end Value

namespace TypeRef

/-- The reference can be read if the item type can. -/
def ReadableWith (item : TypeRef → Prop) : TypeRef → Prop
  | .named _ _ => True
  | .list t _ => item t

/-- The reference can be read with a limit to its nesting. -/
def ReadableWithin : Nat → TypeRef → Prop
  | 0 => ReadableWith (fun _ => False)
  | depth + 1 => ReadableWith (ReadableWithin depth)

/-- The reference can stand in a definition. -/
def Readable (t : TypeRef) : Prop :=
  t.ReadableWithin Reader.maxNesting

/-- Only the wrapping counts. -/
theorem readableWithin_iff
    {depth : Nat}
    {t : TypeRef} :
    t.ReadableWithin depth ↔ t.wrapping.length ≤ depth + 1 := by
  induction t generalizing depth with
  | named n b => cases depth <;> simp [ReadableWithin, ReadableWith, wrapping]
  | list t b ih =>
      cases depth with
      | zero =>
          have wrapped : t.wrapping ≠ [] := by cases t <;> simp [wrapping]
          simpa [ReadableWithin, ReadableWith, wrapping] using wrapped
      | succ depth =>
          rw [wrapping, List.length_cons, Nat.add_le_add_iff_right, ← ih]
          rfl

end TypeRef

section Shallow

variable (n : Name) (b c : Bool)

@[simp] theorem Value.readable_boolean : (Value.boolean b).Readable :=
  trivial

@[simp] theorem Value.readable_int
    (l : IntLiteral) :
    (Value.int l).Readable :=
  trivial

@[simp] theorem Value.readable_string
    (s : String) :
    (Value.string s).Readable :=
  trivial

@[simp] theorem TypeRef.readable_named : (TypeRef.named n b).Readable :=
  trivial

@[simp] theorem TypeRef.readable_list_named : (TypeRef.list (.named n b) c).Readable :=
  trivial

end Shallow

/-- The application can stand in a definition. -/
def Directive.Readable (d : Directive) : Prop :=
  ∀ a ∈ d.arguments, a.value.Readable

/-- The application can be read with a limit to the nesting of its values. -/
def Directive.ReadableWithin (constant : Bool) (depth : Nat) (d : Directive) : Prop :=
  ∀ a ∈ d.arguments, a.value.ReadableWithin constant depth

/-- The argument or input field can be read. -/
structure InputValue.Readable (v : InputValue) : Prop where
  type : v.type.Readable
  default : ∀ d ∈ v.default, d.Readable
  directives : ∀ d ∈ v.directives, d.Readable

/-- The field can be read. -/
structure Field.Readable (f : Field) : Prop where
  arguments : ∀ a ∈ f.arguments, a.Readable
  type : f.type.Readable
  directives : ∀ d ∈ f.directives, d.Readable

/-- The enum value can be read. -/
structure EnumValue.Readable (v : EnumValue) : Prop where
  name : isReservedWord v.name = false
  directives : ∀ d ∈ v.directives, d.Readable

/-- The contents can be read. -/
def TypeContents.Readable : TypeContents → Prop
  | .scalar => True
  | .object _ fields => ∀ f ∈ fields, f.Readable
  | .interface _ fields => ∀ f ∈ fields, f.Readable
  | .union _ => True
  | .enum values => ∀ v ∈ values, v.Readable
  | .inputObject fields => ∀ f ∈ fields, f.Readable

/-- The type or type extension can be read. -/
structure TypeText.Readable (t : TypeText) : Prop where
  directives : ∀ d ∈ t.directives, d.Readable
  contents : t.contents.Readable

/-- The schema definition or an extension of it can be read. -/
def SchemaText.Readable (t : SchemaText) : Prop :=
  ∀ d ∈ t.directives, d.Readable

/-- The directive definition can be read. -/
structure DirectiveDef.Readable (d : DirectiveDef) : Prop where
  arguments : ∀ a ∈ d.arguments, a.Readable
  locations : d.locations ≠ []

/-- All parts of the definition can be read, and it is none of those that are there from the
beginning. -/
def SystemDefinition.Readable : SystemDefinition → Prop
  | .schema t => t.Readable
  | .schemaExtension t => t.Readable
  | .type t => t.Readable
  | .typeExtension t => t.Readable
  | .directive d => d.Readable ∧ d.builtIn = false

namespace Reader

variable {α β : Type}

theorem all?_eq_some_iff
    {p : Reader α}
    {ls : List Lexeme}
    {x : α} :
    p.all? ls = some x ↔ p ls = some (x, []) := by
  unfold all?
  split <;> simp_all

/-- Whatever the reader gives has the property. -/
def Gives (p : Reader α) (P : α → Prop) : Prop :=
  ∀ ls x rest, p ls = some (x, rest) → P x

section Combination

variable {p : Reader α} {f : α → Reader β} {P : α → Prop} {Q : β → Prop}

theorem Gives.any
    (p : Reader α) :
    Gives p (fun _ => True) :=
  fun _ _ _ _ => trivial

theorem Gives.pure
    {x : α}
    (h : P x) :
    Gives (pure x) P := by
  intro ls y rest hy
  cases hy
  exact h

theorem Gives.failure :
    Gives failure P := by
  intro ls x rest h
  cases h

theorem Gives.failure_bind :
    Gives (Alternative.failure >>= f) Q := by
  intro ls x rest h
  cases h

theorem Gives.bind
    (hp : Gives p P)
    (hf : ∀ x, P x → Gives (f x) Q) :
    Gives (p >>= f) Q := by
  intro ls y rest h
  obtain ⟨⟨x, ms⟩, hx, hy⟩ := Option.bind_eq_some_iff.mp
    (show (p ls).bind (fun r => f r.1 r.2) = some (y, rest) from h)
  exact hf x (hp ls x ms hx) ms y rest hy

theorem Gives.map
    (hp : Gives p P)
    {f : α → β}
    (hf : ∀ x, P x → Q (f x)) :
    Gives (f <$> p) Q :=
  hp.bind fun x hx => Gives.pure (hf x hx)

theorem Gives.ite
    {q : Reader α}
    {c : Prop}
    [Decidable c]
    (hp : Gives p P)
    (hq : Gives q P) :
    Gives (if c then p else q) P := by
  split
  · exact hp
  · exact hq

end Combination

section Repetition

variable {p : Reader α} {P : α → Prop} {sep opening close start : Punctuator}

theorem gives_untilWithin
    (hp : Gives p P)
    (fuel : Nat) :
    Gives (untilWithin close p fuel) (fun xs => ∀ x ∈ xs, P x) := by
  induction fuel with
  | zero => exact Gives.failure
  | succ fuel ih =>
      refine (Gives.any _).bind fun b _ => ?_
      cases b with
      | true => exact Gives.pure (by simp)
      | false =>
          exact hp.bind fun x hx => ih.bind fun xs hxs =>
            Gives.pure (List.forall_mem_cons.mpr ⟨hx, hxs⟩)

theorem gives_manyUntil
    (hp : Gives p P) :
    Gives (manyUntil close p) (fun xs => ∀ x ∈ xs, P x) :=
  fun ls => gives_untilWithin hp (ls.length + 1) ls

theorem gives_optionalGroup
    (hp : Gives p P) :
    Gives (optionalGroup opening close p) (fun xs => ∀ x ∈ xs, P x) := by
  refine (Gives.any _).bind fun b _ => Gives.ite ?_ (Gives.pure (by simp))
  exact hp.bind fun x hx => (gives_manyUntil hp).bind fun xs hxs =>
    Gives.pure (List.forall_mem_cons.mpr ⟨hx, hxs⟩)

theorem gives_whileWithin
    (hp : Gives p P)
    (fuel : Nat) :
    Gives (whileWithin start p fuel) (fun xs => ∀ x ∈ xs, P x) := by
  induction fuel with
  | zero => exact Gives.failure
  | succ fuel ih =>
      refine (Gives.any _).bind fun b _ => Gives.ite ?_ (Gives.pure (by simp))
      exact hp.bind fun x hx => ih.bind fun xs hxs =>
        Gives.pure (List.forall_mem_cons.mpr ⟨hx, hxs⟩)

theorem gives_manyWhile
    (hp : Gives p P) :
    Gives (manyWhile start p) (fun xs => ∀ x ∈ xs, P x) :=
  fun ls => gives_whileWithin hp (ls.length + 1) ls

/-- There is at least one item between separators. -/
theorem gives_someBetween :
    Gives (someBetween sep p) (fun xs => xs ≠ []) :=
  (Gives.any _).bind fun _ _ => (Gives.any _).bind fun x _ => (Gives.any _).bind fun xs _ =>
    Gives.pure (List.cons_ne_nil x xs)

theorem mem_found_iff
    {xs : List (Option α)}
    {x : α} :
    x ∈ found xs ↔ some x ∈ xs := by
  simp [found]

end Repetition

end Reader

open Reader

section Parts

theorem Value.readableWith_ofName
    (constant : Bool)
    (inner : Value → Prop)
    (n : Name) :
    (ofName n).ReadableWith constant inner := by
  have values : (∃ b, ofName n = .boolean b) ∨ ofName n = .null ∨ ofName n = .enum n := by
    unfold ofName
    split <;> simp
  rcases values with ⟨b, h⟩ | h | h
  · rw [h]
    trivial
  · rw [h]
    trivial
  · rw [h]
    exact h

theorem Value.gives_readWith
    {constant : Bool}
    {inner : Reader Value}
    {P : Value → Prop}
    (h : Gives inner P) :
    Gives (readWith constant inner) (ReadableWith constant P) := by
  refine (Gives.any _).bind fun t _ => ?_
  cases t with
  | name n => exact Gives.pure (readableWith_ofName constant P n)
  | int l => exact Gives.pure trivial
  | float l => exact Gives.pure trivial
  | string s => exact Gives.pure trivial
  | punct p =>
      cases p
      case dollar =>
        cases constant with
        | true => exact Gives.failure
        | false => exact (Gives.any _).bind fun n _ => Gives.pure rfl
      case leftBracket => exact (gives_manyUntil h).bind fun vs hvs => Gives.pure hvs
      case leftBrace =>
        have field : Gives (readField inner) (fun f => ∀ g ∈ f, P g.2) := by
          refine (Gives.any _).bind fun n _ => (Gives.any _).bind fun b _ => ?_
          cases b with
          | true => exact h.bind fun v hv => Gives.pure (by simpa using hv)
          | false => exact Gives.pure (by simp)
        refine (gives_manyUntil field).bind fun fs hfs => Gives.pure fun f hf => ?_
        exact hfs _ (mem_found_iff.mp hf) f rfl
      all_goals exact Gives.failure

/-- A value is read with its limit. -/
theorem Value.gives_readWithin
    (constant : Bool)
    (depth : Nat) :
    Gives (readWithin constant depth) (ReadableWithin constant depth) := by
  induction depth with
  | zero => exact gives_readWith Gives.failure
  | succ depth ih => exact gives_readWith ih

theorem TypeRef.gives_readWith
    {item : Reader TypeRef}
    {P : TypeRef → Prop}
    (h : Gives item P) :
    Gives (readWith item) (ReadableWith P) := by
  refine (Gives.any _).bind fun b _ => ?_
  cases b with
  | true =>
      exact h.bind fun t ht => (Gives.any _).bind fun _ _ => (Gives.any _).bind fun _ _ =>
        Gives.pure ht
  | false => exact (Gives.any _).bind fun _ _ => (Gives.any _).bind fun _ _ => Gives.pure trivial

theorem TypeRef.gives_read :
    Gives read Readable := by
  have within : ∀ depth, Gives (readWithin depth) (ReadableWithin depth) := by
    intro depth
    induction depth with
    | zero => exact gives_readWith Gives.failure
    | succ depth ih => exact gives_readWith ih
  exact within Reader.maxNesting

theorem Argument.gives_readList
    (constant : Bool)
    (depth : Nat) :
    Gives (readList constant depth)
      (fun as => ∀ a ∈ as, a.value.ReadableWithin constant depth) := by
  have argument : Gives (read constant depth)
      (fun a => ∀ b ∈ a, b.value.ReadableWithin constant depth) := by
    refine (Gives.any _).bind fun n _ => (Gives.any _).bind fun b _ => ?_
    cases b with
    | true =>
        refine (Value.gives_readWithin constant depth).bind fun v hv => Gives.pure ?_
        rintro _ ⟨⟩
        exact hv
    | false => exact Gives.pure (by simp)
  exact (gives_optionalGroup argument).bind fun as has => Gives.pure fun a ha =>
    has _ (mem_found_iff.mp ha) a rfl

theorem Directive.gives_readListWithin
    (constant : Bool)
    (depth : Nat) :
    Gives (readListWithin constant depth) (fun ds => ∀ d ∈ ds, d.ReadableWithin constant depth) := by
  refine gives_manyWhile ((Gives.any _).bind fun _ _ => (Gives.any _).bind fun n _ => ?_)
  exact (Argument.gives_readList constant depth).bind fun as has => Gives.pure has

theorem Directive.gives_readList :
    Gives (readList true) (fun ds => ∀ d ∈ ds, d.Readable) :=
  gives_readListWithin true Reader.maxNesting

theorem InputValue.gives_read :
    Gives read Readable := by
  refine (Gives.any _).bind fun d _ => (Gives.any _).bind fun n _ => (Gives.any _).bind fun _ _ =>
    TypeRef.gives_read.bind fun t ht => ?_
  have rest : ∀ v : Option Value, (∀ w ∈ v, w.Readable) → Gives (do
      let directives ← Directive.readList true
      return (⟨d, n, t, v, directives⟩ : InputValue)) Readable :=
    fun v hv => Directive.gives_readList.bind fun ds hds => Gives.pure ⟨ht, hv, hds⟩
  refine (Gives.any _).bind fun b _ => Gives.ite ?_ ?_
  · refine Gives.bind ((Value.gives_readWithin true Reader.maxNesting).map ?_) rest
    rintro v hv _ ⟨⟩
    exact hv
  · exact rest none (by simp)

theorem InputValue.gives_readList :
    Gives readList (fun vs => ∀ v ∈ vs, v.Readable) :=
  gives_optionalGroup gives_read

theorem Field.gives_read :
    Gives read Readable := by
  refine (Gives.any _).bind fun d _ => (Gives.any _).bind fun n _ =>
    InputValue.gives_readList.bind fun as has => (Gives.any _).bind fun _ _ =>
      TypeRef.gives_read.bind fun t ht => Directive.gives_readList.bind fun ds hds => ?_
  exact Gives.pure ⟨has, ht, hds⟩

theorem EnumValue.gives_read :
    Gives read Readable := by
  refine (Gives.any _).bind fun d _ => (Gives.any _).bind fun n _ => ?_
  cases reserved : isReservedWord n with
  | true => exact Gives.failure_bind
  | false => exact Directive.gives_readList.bind fun ds hds => Gives.pure ⟨reserved, hds⟩

end Parts

section Definitions

theorem TypeText.gives_read
    (kind : TypeKind)
    (description : Option String) :
    Gives (read kind description) Readable := by
  refine (Gives.any _).bind fun n _ => ?_
  cases kind with
  | scalar => exact Directive.gives_readList.bind fun ds hds => Gives.pure ⟨hds, trivial⟩
  | object =>
      exact (Gives.any _).bind fun _ _ => Directive.gives_readList.bind fun ds hds =>
        (gives_optionalGroup Field.gives_read).bind fun fs hfs => Gives.pure ⟨hds, hfs⟩
  | interface =>
      exact (Gives.any _).bind fun _ _ => Directive.gives_readList.bind fun ds hds =>
        (gives_optionalGroup Field.gives_read).bind fun fs hfs => Gives.pure ⟨hds, hfs⟩
  | union =>
      exact Directive.gives_readList.bind fun ds hds => (Gives.any _).bind fun _ _ =>
        Gives.pure ⟨hds, trivial⟩
  | enum =>
      exact Directive.gives_readList.bind fun ds hds =>
        (gives_optionalGroup EnumValue.gives_read).bind fun vs hvs => Gives.pure ⟨hds, hvs⟩
  | inputObject =>
      exact Directive.gives_readList.bind fun ds hds =>
        (gives_optionalGroup InputValue.gives_read).bind fun fs hfs => Gives.pure ⟨hds, hfs⟩

theorem SchemaText.gives_read
    (description : Option String) :
    Gives (read description) Readable :=
  Directive.gives_readList.bind fun _ hds => (Gives.any _).bind fun _ _ => Gives.pure hds

theorem SchemaText.gives_readExtension :
    Gives readExtension Readable := by
  refine Directive.gives_readList.bind fun ds hds => (Gives.any _).bind fun b _ =>
    Gives.ite ((Gives.any _).bind fun rs _ => ?_) ?_
  · exact Gives.ite Gives.failure_bind (Gives.pure hds)
  · exact Gives.ite Gives.failure_bind (Gives.pure hds)

theorem DirectiveDef.gives_read
    (description : Option String) :
    Gives (read description) (fun d => d.Readable ∧ d.builtIn = false) := by
  refine (Gives.any _).bind fun _ _ => (Gives.any _).bind fun n _ =>
    InputValue.gives_readList.bind fun as has => (Gives.any _).bind fun r _ =>
      (Gives.any _).bind fun _ _ => gives_someBetween.bind fun ls hls => ?_
  exact Gives.pure ⟨⟨has, hls⟩, rfl⟩

/-- The definition, if it belongs to the type system, can be read. -/
def Definition.Readable : Definition → Prop
  | .system d => d.Readable
  | _ => True

theorem SystemDefinition.gives_readDescribed
    (k : Keyword)
    (description : Option String) :
    Gives (readDescribed k description) Readable := by
  have type : ∀ kind, Gives (do return .type (← TypeText.read kind description)) Readable :=
    fun kind => (TypeText.gives_read kind description).bind fun t ht => Gives.pure ht
  cases k
  case schema => exact (SchemaText.gives_read description).bind fun t ht => Gives.pure ht
  case directive => exact (DirectiveDef.gives_read description).bind fun d hd => Gives.pure hd
  all_goals first
    | exact type _
    | exact Gives.failure

theorem SystemDefinition.gives_readExtension :
    Gives readExtension Readable := by
  refine (Gives.any _).bind fun _ _ => (Gives.any _).bind fun n _ => ?_
  split
  · exact SchemaText.gives_readExtension.bind fun t ht => Gives.pure ht
  · split
    · rename_i kind _
      exact (TypeText.gives_read kind none).bind fun t ht =>
        Gives.ite Gives.failure_bind (Gives.pure ht)
    · exact Gives.failure
  · exact Gives.failure

theorem Definition.gives_readOperation
    (kind : OperationKind) :
    Gives (readOperation kind) Readable :=
  (Gives.any _).bind fun _ _ => (Gives.any _).bind fun _ _ => (Gives.any _).bind fun _ _ =>
    (Gives.any _).bind fun _ _ => Gives.pure trivial

theorem Definition.gives_readFragment
    (name : Name) :
    Gives (readFragment name) Readable := by
  unfold readFragment
  refine Gives.ite Gives.failure_bind ?_
  exact (Gives.any _).bind fun _ _ => (Gives.any _).bind fun _ _ => (Gives.any _).bind fun _ _ =>
    (Gives.any _).bind fun _ _ => Gives.pure trivial

theorem Definition.gives_readBare
    (k : Keyword) :
    Gives (readBare k) Readable := by
  have described : Gives (do return .system (← SystemDefinition.readDescribed k none)) Readable :=
    (SystemDefinition.gives_readDescribed k none).bind fun d hd => Gives.pure hd
  cases k
  case extend => exact SystemDefinition.gives_readExtension.bind fun d hd => Gives.pure hd
  case query => exact gives_readOperation .query
  case mutation => exact gives_readOperation .mutation
  case subscription => exact gives_readOperation .subscription
  case fragment => exact (Gives.any _).bind fun n _ => gives_readFragment n
  all_goals exact described

theorem Definition.gives_readBehind
    (description : String) :
    Gives (readBehind description) Readable := by
  refine (Gives.any _).bind fun _ _ => (Gives.any _).bind fun n _ => ?_
  split
  · exact gives_readFragment _
  · exact (SystemDefinition.gives_readDescribed _ (some description)).bind fun d hd => Gives.pure hd
  · exact Gives.failure

theorem Definition.gives_read :
    Gives read Readable := by
  refine (Gives.any _).bind fun b _ => Gives.ite ?_ ((Gives.any _).bind fun s _ => ?_)
  · exact (Gives.any _).bind fun _ _ => Gives.pure trivial
  · cases s with
    | some s => exact gives_readBehind s
    | none =>
        refine (Gives.any _).bind fun n _ => ?_
        split
        · rename_i k _
          exact gives_readBare k
        · exact Gives.failure

theorem Document.gives_read :
    Gives read (fun ds => ∀ d ∈ ds, d.Readable) := by
  have rest : ∀ fuel, Gives (readWithin fuel) (fun ds => ∀ d ∈ ds, d.Readable) := by
    intro fuel
    induction fuel with
    | zero => exact Gives.failure
    | succ fuel ih =>
        refine (Gives.any _).bind fun t _ => ?_
        cases t with
        | none => exact Gives.pure (by simp)
        | some t =>
            exact Definition.gives_read.bind fun d hd => ih.bind fun ds hds =>
              Gives.pure (List.forall_mem_cons.mpr ⟨hd, hds⟩)
  exact fun ls => (Definition.gives_read.bind fun d hd => (rest (ls.length + 1)).bind fun ds hds =>
    Gives.pure (List.forall_mem_cons.mpr ⟨hd, hds⟩)) ls

theorem Document.readable_of_systemDefinitions?
    {doc : Document}
    {ds : List SystemDefinition}
    (h : doc.systemDefinitions? = some ds)
    (readable : ∀ d ∈ doc, d.Readable) :
    ∀ d ∈ ds, d.Readable := by
  induction doc generalizing ds with
  | nil =>
      cases h
      simp
  | cons d doc ih =>
      cases d with
      | system d =>
          obtain ⟨es, hes, rfl⟩ := Option.map_eq_some_iff.mp h
          exact List.forall_mem_cons.mpr ⟨readable _ List.mem_cons_self,
            ih hes fun e he => readable e (List.mem_cons_of_mem _ he)⟩
      | operation => cases h
      | fragment => cases h

/-- **What is parsed is readable.** -/
theorem Document.readable_of_parse?
    {sdl : String}
    {doc : Document}
    (parsed : parse? sdl = some doc) :
    ∀ d ∈ doc, d.Readable := by
  obtain ⟨ls, -, all⟩ := Option.bind_eq_some_iff.mp parsed
  exact gives_read ls doc [] (all?_eq_some_iff.mp all)

end Definitions

end Supergraph
