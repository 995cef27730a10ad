import Supergraph.Proofs.Elision
import Supergraph.Validity

/-!
# Rules that do not look at applications

`Schema.unapplied` is a schema without any application of a directive.  Most of the rules
for valid schemas cannot tell the two apart: those on roots, names, references, parts and
implemented interfaces, the one on input objects, and the question whether an application
fits its definition.  What becomes of the applications of a schema is therefore seen by
two rules only, that no directive leads back to itself and that all applications in a
place fit.
-/

namespace Supergraph

/-- No application is shown. -/
abbrev hideAll : Hidden := fun _ => true

theorem lookup_map
    {α : Type}
    [Keyed α]
    {f : α → α}
    (hf : ∀ x, key (f x) = key x)
    (k : Name)
    (xs : List α) :
    lookup k (xs.map f) = (lookup k xs).map f := by
  rw [lookup, lookup, List.find?_map]
  congr 2
  funext x
  simp [hf]

namespace InputValue

variable (hidden : Hidden) (v : InputValue)

@[simp] theorem name_elide : (v.elide hidden).name = v.name := rfl

@[simp] theorem type_elide : (v.elide hidden).type = v.type := rfl

@[simp] theorem isRequired_elide : (v.elide hidden).isRequired = v.isRequired := rfl

@[simp] theorem lookup_map_elide
    (n : Name)
    (vs : List InputValue) :
    lookup n (vs.map (elide hidden)) = (lookup n vs).map (elide hidden) :=
  lookup_map (f := elide hidden) (fun _ => rfl) n vs

end InputValue

namespace Field

variable (hidden : Hidden) (f : Field)

@[simp] theorem name_elide : (f.elide hidden).name = f.name := rfl

@[simp] theorem type_elide : (f.elide hidden).type = f.type := rfl

@[simp] theorem arguments_elide :
    (f.elide hidden).arguments = f.arguments.map (InputValue.elide hidden) :=
  rfl

@[simp] theorem lookup_map_elide
    (n : Name)
    (fs : List Field) :
    lookup n (fs.map (elide hidden)) = (lookup n fs).map (elide hidden) :=
  lookup_map (f := elide hidden) (fun _ => rfl) n fs

end Field

@[simp] theorem EnumValue.name_elide
    (hidden : Hidden)
    (v : EnumValue) :
    (v.elide hidden).name = v.name :=
  rfl

namespace TypeBody

variable (hidden : Hidden) (b : TypeBody)

@[simp] theorem kind_elide : (b.elide hidden).kind = b.kind := by
  cases b <;> rfl

@[simp] theorem interfaces_elide : (b.elide hidden).interfaces = b.interfaces := by
  cases b <;> rfl

@[simp] theorem members_elide : (b.elide hidden).members = b.members := by
  cases b <;> rfl

@[simp] theorem fields_elide :
    (b.elide hidden).fields = b.fields.map (Field.elide hidden) := by
  cases b <;> simp [elide, fields, Table.mapValues]

@[simp] theorem values_elide :
    (b.elide hidden).values = b.values.map (EnumValue.elide hidden) := by
  cases b <;> simp [elide, values, Table.mapValues]

@[simp] theorem inputFields_elide :
    (b.elide hidden).inputFields = b.inputFields.map (InputValue.elide hidden) := by
  cases b <;> simp [elide, inputFields, Table.mapValues]

end TypeBody

namespace TypeDef

variable (hidden : Hidden) (t : TypeDef)

@[simp] theorem name_elide : (t.elide hidden).name = t.name := rfl

@[simp] theorem body_elide : (t.elide hidden).body = t.body.elide hidden := rfl

@[simp] theorem kind_elide : (t.elide hidden).kind = t.kind :=
  t.body.kind_elide hidden

@[simp] theorem isBuiltInScalar_elide : (t.elide hidden).isBuiltInScalar = t.isBuiltInScalar := by
  simp only [isBuiltInScalar, kind_elide]
  rfl

@[simp] theorem isCustomScalar_elide : (t.elide hidden).isCustomScalar = t.isCustomScalar := by
  simp only [isCustomScalar, kind_elide]
  rfl

@[simp] theorem isInput_elide : (t.elide hidden).isInput = t.isInput := by
  simp only [isInput, kind_elide]

@[simp] theorem isOutput_elide : (t.elide hidden).isOutput = t.isOutput := by
  simp only [isOutput, kind_elide]

end TypeDef

namespace DirectiveDef

variable (hidden : Hidden) (d : DirectiveDef)

@[simp] theorem name_elide : (d.elide hidden).name = d.name := rfl

@[simp] theorem locations_elide : (d.elide hidden).locations = d.locations := rfl

@[simp] theorem repeatable_elide : (d.elide hidden).repeatable = d.repeatable := rfl

@[simp] theorem arguments_elide :
    (d.elide hidden).arguments = d.arguments.map (InputValue.elide hidden) :=
  rfl

end DirectiveDef

namespace Schema

/-- The schema without any application. -/
def unapplied (s : Schema) : Schema :=
  { s.withTypes (s.types.mapValues (TypeDef.elide hideAll) (fun _ => rfl)) with
    definition := s.definition.elide hideAll
    directives := s.directives.mapValues (DirectiveDef.elide hideAll) (fun _ => rfl) }

variable (s : Schema)

section Members

@[simp] theorem items_types_unapplied :
    s.unapplied.types.items = s.types.items.map (TypeDef.elide hideAll) :=
  rfl

@[simp] theorem items_directives_unapplied :
    s.unapplied.directives.items = s.directives.items.map (DirectiveDef.elide hideAll) :=
  rfl

@[simp] theorem keys_types_unapplied :
    s.unapplied.types.keys = s.types.keys :=
  Table.keys_mapValues (TypeDef.elide hideAll) (fun _ => rfl) s.types

@[simp] theorem introspection_unapplied :
    s.unapplied.introspection = s.introspection :=
  introspection_withTypes fun _ hn => s.keys_types_unapplied ▸ hn

@[simp] theorem type?_unapplied
    (n : Name) :
    s.unapplied.type? n = (s.type? n).map (TypeDef.elide hideAll) :=
  lookup_map (f := TypeDef.elide hideAll) (fun _ => rfl) n s.types.items

@[simp] theorem directive?_unapplied
    (n : Name) :
    s.unapplied.directive? n = (s.directive? n).map (DirectiveDef.elide hideAll) :=
  lookup_map (f := DirectiveDef.elide hideAll) (fun _ => rfl) n s.directives.items

end Members

section References

@[simp] theorem isObject_unapplied : s.unapplied.isObject = s.isObject := by
  funext n
  cases h : s.type? n <;> simp [isObject, h]

theorem rootsValid_unapplied : s.unapplied.rootsValid = s.rootsValid := by
  have roots : s.unapplied.definition.roots = s.definition.roots := rfl
  have query : s.unapplied.definition.query = s.definition.query := rfl
  simp only [rootsValid, roots, query, isObject_unapplied]

@[simp] theorem argumentNamesFree_map_elide
    (vs : List InputValue) :
    argumentNamesFree (vs.map (InputValue.elide hideAll)) = argumentNamesFree vs := by
  simp [argumentNamesFree, Function.comp_def]

theorem allNamesFree_unapplied : s.unapplied.allNamesFree = s.allNamesFree := by
  have types : s.unapplied.typeNamesFree ∘ TypeDef.elide hideAll = s.typeNamesFree := by
    funext t
    simp [typeNamesFree, partNamesFree, Function.comp_def]
  have directives : directiveNamesFree ∘ DirectiveDef.elide hideAll = directiveNamesFree := by
    funext d
    simp [directiveNamesFree]
  simp [allNamesFree, types, directives]

@[simp] theorem argumentNamesDistinct_map_elide
    (vs : List InputValue) :
    argumentNamesDistinct (vs.map (InputValue.elide hideAll)) = argumentNamesDistinct vs := by
  simp [argumentNamesDistinct, Function.comp_def]

theorem allArgumentNamesDistinct_unapplied :
    s.unapplied.allArgumentNamesDistinct = s.allArgumentNamesDistinct := by
  simp [allArgumentNamesDistinct, Function.comp_def]

theorem refersTo_unapplied
    {wanted : TypeDef → Bool}
    (blind : ∀ t, wanted (t.elide hideAll) = wanted t)
    (r : TypeRef) :
    s.unapplied.refersTo wanted r = s.refersTo wanted r := by
  cases h : s.type? r.innermost <;> simp [refersTo, h, blind]

@[simp] theorem argumentTypesValid_unapplied
    (vs : List InputValue) :
    s.unapplied.argumentTypesValid (vs.map (InputValue.elide hideAll)) =
      s.argumentTypesValid vs := by
  simp [argumentTypesValid, Function.comp_def,
    s.refersTo_unapplied (fun t => t.isInput_elide hideAll)]

@[simp] theorem typeHasParts_elide
    (t : TypeDef) :
    typeHasParts (t.elide hideAll) = typeHasParts t := by
  obtain ⟨description, name, builtIn, directives, body⟩ := t
  cases body <;> simp [typeHasParts, TypeDef.elide, TypeBody.elide, Table.mapValues]

theorem allPartsValid_unapplied : s.unapplied.allPartsValid = s.allPartsValid := by
  simp [allPartsValid, partTypesValid, Function.comp_def,
    s.refersTo_unapplied (fun t => t.isOutput_elide hideAll)]

end References

section Interfaces

@[simp] theorem isPartOf_unapplied : s.unapplied.isPartOf = s.isPartOf := by
  funext n m
  cases hm : s.type? m with
  | none => simp [isPartOf, hm]
  | some a => cases hn : s.type? n <;> simp [isPartOf, hm, hn]

@[simp] theorem isSubtype_unapplied
    (t u : TypeRef) :
    s.unapplied.isSubtype t u = s.isSubtype t u := by
  induction t generalizing u with
  | named n b => cases u <;> simp [isSubtype]
  | list t b ih => cases u <;> simp [isSubtype, ih]

@[simp] theorem fieldImplements_unapplied
    (f asked : Field) :
    s.unapplied.fieldImplements (f.elide hideAll) (asked.elide hideAll) =
      s.fieldImplements f asked := by
  simp only [fieldImplements, Field.type_elide, isSubtype_unapplied, Field.arguments_elide,
    List.all_map, Function.comp_def, InputValue.lookup_map_elide, InputValue.name_elide,
    InputValue.type_elide, InputValue.isRequired_elide, Option.isSome_map]
  congr 2
  refine List.all_congr rfl fun a => ?_
  cases lookup a.name f.arguments <;> rfl

@[simp] theorem implements_unapplied
    (t : TypeDef) :
    s.unapplied.implements (t.elide hideAll) = s.implements t := by
  funext n
  cases h : s.type? n with
  | none => simp [implements, h]
  | some i =>
      simp only [implements, type?_unapplied, h, Option.map_some, TypeDef.body_elide,
        TypeDef.kind_elide, TypeDef.name_elide, TypeBody.interfaces_elide, TypeBody.fields_elide,
        List.all_map, Function.comp_def, Field.lookup_map_elide, Field.name_elide]
      congr 1
      refine List.all_congr rfl fun asked => ?_
      cases lookup asked.name t.body.fields <;> simp

theorem allImplement_unapplied : s.unapplied.allImplement = s.allImplement := by
  simp [allImplement, Function.comp_def]

end Interfaces

section InputObjects

@[simp] theorem isInputObject_unapplied : s.unapplied.isInputObject = s.isInputObject := by
  funext n
  cases h : s.type? n <;> simp [isInputObject, h]

@[simp] theorem heldBy_unapplied : s.unapplied.heldBy = s.heldBy := by
  funext n
  have held : ∀ v : InputValue, alwaysHolds (v.elide hideAll) = alwaysHolds v := fun _ => rfl
  cases h : s.type? n <;> simp [heldBy, h, List.filterMap_map, held]

@[simp] theorem heldAt_unapplied
    (levels : Nat)
    (ns : List Name) :
    s.unapplied.heldAt levels ns = s.heldAt levels ns := by
  induction levels generalizing ns with
  | zero => rfl
  | succ levels ih => simp only [heldAt, heldBy_unapplied, ih]

theorem inputObjectsFinite_unapplied :
    s.unapplied.inputObjectsFinite = s.inputObjectsFinite := by
  simp only [inputObjectsFinite, keys_types_unapplied, isInputObject_unapplied, heldAt_unapplied]

end InputObjects

section Values

@[simp] theorem takesInt_elide
    (t : TypeDef)
    (l : IntLiteral) :
    takesInt (t.elide hideAll) l = takesInt t l := by
  simp [takesInt]

@[simp] theorem takesFloat_elide
    (t : TypeDef)
    (l : FloatLiteral) :
    takesFloat (t.elide hideAll) l = takesFloat t l := by
  simp [takesFloat]

@[simp] theorem takesString_elide
    (t : TypeDef) :
    takesString (t.elide hideAll) = takesString t := by
  simp [takesString]

@[simp] theorem takesBoolean_elide
    (t : TypeDef) :
    takesBoolean (t.elide hideAll) = takesBoolean t := by
  simp [takesBoolean]

@[simp] theorem takesEnum_elide
    (t : TypeDef)
    (n : Name) :
    takesEnum (t.elide hideAll) n = takesEnum t n := by
  simp [takesEnum, Function.comp_def]

@[simp] theorem givesRequired_map_elide
    (vs : List InputValue)
    (fields : List (Name × Value)) :
    givesRequired (vs.map (InputValue.elide hideAll)) fields = givesRequired vs fields := by
  simp [givesRequired, Function.comp_def]

mutual

theorem conforms_unapplied
    (s : Schema) :
    ∀ (x : Value) (t : TypeRef), s.unapplied.conforms x t = s.conforms x t
  | .null, t => by cases h : s.type? t.innermost <;> simp [conforms, h]
  | .int l, t => by cases h : s.type? t.innermost <;> simp [conforms, h]
  | .float l, t => by cases h : s.type? t.innermost <;> simp [conforms, h]
  | .string x, t => by cases h : s.type? t.innermost <;> simp [conforms, h]
  | .boolean b, t => by cases h : s.type? t.innermost <;> simp [conforms, h]
  | .enum n, t => by cases h : s.type? t.innermost <;> simp [conforms, h]
  | .var n, t => by cases h : s.type? t.innermost <;> simp [conforms, h]
  | .list xs, t => by
      have items := conformAll_unapplied s xs t.item
      cases h : s.type? t.innermost <;> simp [conforms, h, items]
  | .object fs, t => by
      have fields := conformFields_unapplied s fs
      cases h : s.type? t.innermost <;> simp [conforms, h, fields]

theorem conformAll_unapplied
    (s : Schema) :
    ∀ (xs : List Value) (t : TypeRef), s.unapplied.conformAll xs t = s.conformAll xs t
  | [], _ => rfl
  | x :: xs, t => by
      simp only [conformAll, conforms_unapplied s x t, conformAll_unapplied s xs t]

theorem conformFields_unapplied
    (s : Schema) :
    ∀ (fs : List (Name × Value)) (vs : List InputValue) (seen : List Name),
      s.unapplied.conformFields (vs.map (InputValue.elide hideAll)) seen fs =
        s.conformFields vs seen fs
  | [], _, _ => rfl
  | (n, x) :: fs, vs, seen => by
      simp only [conformFields, InputValue.lookup_map_elide, conformFields_unapplied s fs]
      cases lookup n vs with
      | none => rfl
      | some v => simp only [Option.map_some, InputValue.type_elide, conforms_unapplied s x v.type]

end

end Values

section Applications

theorem argumentsConform_unapplied
    (d : DirectiveDef)
    (a : Directive) :
    s.unapplied.argumentsConform (d.elide hideAll) a = s.argumentsConform d a := by
  unfold argumentsConform
  refine List.all_congr rfl fun x => ?_
  simp only [DirectiveDef.arguments_elide, InputValue.lookup_map_elide]
  cases lookup x.name d.arguments with
  | none => rfl
  | some v => exact conforms_unapplied s x.value v.type

theorem argumentsComplete_elide
    (d : DirectiveDef)
    (a : Directive) :
    argumentsComplete (d.elide hideAll) a = argumentsComplete d a := by
  simp [argumentsComplete, Function.comp_def]

theorem applicationFits_unapplied : s.unapplied.applicationFits = s.applicationFits := by
  funext l a
  cases h : s.directive? a.name with
  | none => simp [applicationFits, h]
  | some d =>
      simp [applicationFits, h, argumentsConform_unapplied, argumentsComplete_elide]

theorem isRepeatable_unapplied : s.unapplied.isRepeatable = s.isRepeatable := by
  funext n
  cases h : s.directive? n <;> simp [isRepeatable, h]

theorem applicationsFit_unapplied : s.unapplied.applicationsFit = s.applicationsFit := by
  funext l ds
  simp only [applicationsFit, repeatsAllowed, applicationFits_unapplied, isRepeatable_unapplied]

end Applications

end Schema

end Supergraph
