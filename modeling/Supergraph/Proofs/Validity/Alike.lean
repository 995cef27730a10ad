import Supergraph.Proofs.Target
import Supergraph.Validity

/-!
# Types that differ in the order of their parts

A text that was written lists the parts of a type place by place, so that they may come back
in another order.  Two such types are *alike* (`TypeDef.Alike`), and the rules for valid
schemas cannot tell them apart: whatever they ask of a type they ask of each part, or of the
part with a certain name.
-/

namespace Supergraph

section Lookups

variable {α : Type} [Keyed α] {xs ys : List α}

/-- As long as names are distinct, the order does not matter for what is found. -/
theorem lookup_perm
    (distinct : (xs.map key).Nodup)
    (same : ys.Perm xs)
    (k : Name) :
    lookup k ys = lookup k xs := by
  have distinct' : (ys.map key).Nodup := (same.map key).nodup_iff.mpr distinct
  ext x
  have found := Table.get?_eq_some_iff (t := ⟨xs, distinct⟩) (k := k) (x := x)
  have found' := Table.get?_eq_some_iff (t := ⟨ys, distinct'⟩) (k := k) (x := x)
  exact found'.trans ((and_congr_left' same.mem_iff).trans found.symm)

theorem nodup_map_key_item
    (t : Table (Sourced α)) :
    ((t.items.map Sourced.item).map key).Nodup := by
  rw [List.map_map]
  exact t.nodup

end Lookups

namespace TypeBody

theorem nodup_fields
    (b : TypeBody) :
    (b.fields.map key).Nodup := by
  cases b with
  | object is fs => exact nodup_map_key_item fs
  | interface is fs => exact nodup_map_key_item fs
  | _ => exact List.nodup_nil

theorem nodup_inputFields
    (b : TypeBody) :
    (b.inputFields.map key).Nodup := by
  cases b with
  | inputObject fs => exact nodup_map_key_item fs
  | _ => exact List.nodup_nil

theorem eq_scalar_of_kind
    {b : TypeBody}
    (scalar : b.kind = .scalar) :
    b = .scalar := by
  cases b with
  | scalar => rfl
  | _ => cases scalar

end TypeBody

theorem TypeDef.body_of_isBuiltInScalar
    {t : TypeDef}
    (scalar : t.isBuiltInScalar = true) :
    t.body = .scalar := by
  simp only [isBuiltInScalar, Bool.and_eq_true, beq_iff_eq] at scalar
  exact TypeBody.eq_scalar_of_kind scalar.2

/-- The two types are the same up to the order of their parts and where these come from. -/
structure TypeDef.Alike (t u : TypeDef) : Prop where
  name : u.name = t.name
  builtIn : u.builtIn = t.builtIn
  kind : u.kind = t.kind
  applications : u.applications.Perm t.applications
  interfaces : u.body.interfaces.Perm t.body.interfaces
  fields : u.body.fields.Perm t.body.fields
  members : u.body.members.Perm t.body.members
  values : u.body.values.Perm t.body.values
  inputFields : u.body.inputFields.Perm t.body.inputFields

namespace TypeDef.Alike

variable {t u : TypeDef}

theorem refl
    (t : TypeDef) :
    t.Alike t :=
  ⟨rfl, rfl, rfl, .refl _, .refl _, .refl _, .refl _, .refl _, .refl _⟩

variable (h : t.Alike u)

include h

theorem isBuiltInScalar : u.isBuiltInScalar = t.isBuiltInScalar := by
  simp only [TypeDef.isBuiltInScalar, h.builtIn, h.kind]

theorem isCustomScalar : u.isCustomScalar = t.isCustomScalar := by
  simp only [TypeDef.isCustomScalar, h.builtIn, h.kind]

theorem isInput : u.isInput = t.isInput := by
  simp only [TypeDef.isInput, h.kind]

theorem isOutput : u.isOutput = t.isOutput := by
  simp only [TypeDef.isOutput, h.kind]

theorem lookup_fields
    (n : Name) :
    lookup n u.body.fields = lookup n t.body.fields :=
  lookup_perm t.body.nodup_fields h.fields n

theorem lookup_inputFields
    (n : Name) :
    lookup n u.body.inputFields = lookup n t.body.inputFields :=
  lookup_perm t.body.nodup_inputFields h.inputFields n

section Rules

theorem partNamesFree : Schema.partNamesFree u = Schema.partNamesFree t := by
  simp only [Schema.partNamesFree, Schema.argumentNamesFree, h.fields.all_eq, h.values.all_eq,
    h.inputFields.all_eq]

theorem typeHasParts : Schema.typeHasParts u = Schema.typeHasParts t := by
  -- Each kind of type is asked for parts of one sort, and has none of the others.
  have parts : ∀ t : TypeDef, Schema.typeHasParts t =
      (t.kind == .scalar || !t.body.fields.isEmpty || !t.body.members.isEmpty ||
        !t.body.values.isEmpty || !t.body.inputFields.isEmpty) := by
    intro t
    obtain ⟨-, -, -, -, body⟩ := t
    cases body <;> simp [Schema.typeHasParts, TypeDef.kind, TypeBody.kind, TypeBody.fields,
      TypeBody.members, TypeBody.values, TypeBody.inputFields, Table.keys]
  simp only [parts, h.kind, h.fields.isEmpty_eq, h.members.isEmpty_eq, h.values.isEmpty_eq,
    h.inputFields.isEmpty_eq]

variable (l : IntLiteral) (x : FloatLiteral) (n : Name)

theorem takesInt : Schema.takesInt u l = Schema.takesInt t l := by
  simp only [Schema.takesInt, h.isCustomScalar, h.isBuiltInScalar, h.name]

theorem takesFloat : Schema.takesFloat u x = Schema.takesFloat t x := by
  simp only [Schema.takesFloat, h.isCustomScalar, h.isBuiltInScalar, h.name]

theorem takesString : Schema.takesString u = Schema.takesString t := by
  simp only [Schema.takesString, h.isCustomScalar, h.isBuiltInScalar, h.name]

theorem takesBoolean : Schema.takesBoolean u = Schema.takesBoolean t := by
  simp only [Schema.takesBoolean, h.isCustomScalar, h.isBuiltInScalar, h.name]

theorem takesEnum : Schema.takesEnum u n = Schema.takesEnum t n := by
  simp only [Schema.takesEnum, h.isCustomScalar, h.values.any_eq]

theorem givesRequired
    (fields : List (Name × Value)) :
    Schema.givesRequired u.body.inputFields fields =
      Schema.givesRequired t.body.inputFields fields :=
  h.inputFields.all_eq

end Rules

end TypeDef.Alike

namespace Schema

variable {s : Schema} {xs ys : List Directive}

theorem repeatsAllowed_perm
    (same : ys.Perm xs) :
    s.repeatsAllowed ys = s.repeatsAllowed xs := by
  simp only [repeatsAllowed, same.all_eq, same.countP_eq]

theorem applicationsFit_perm
    (same : ys.Perm xs)
    (l : Location) :
    s.applicationsFit l ys = s.applicationsFit l xs := by
  simp only [applicationsFit, same.all_eq, repeatsAllowed_perm same]

theorem typeApplicationsFit_alike
    {t u : TypeDef}
    (h : t.Alike u) :
    s.typeApplicationsFit u = s.typeApplicationsFit t := by
  simp only [typeApplicationsFit, h.isBuiltInScalar, h.kind, applicationsFit_perm h.applications,
    h.fields.all_eq, h.values.all_eq, h.inputFields.all_eq]

end Schema

end Supergraph
