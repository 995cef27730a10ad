import Supergraph.Schema.BuiltIn

/-!
# Values of the right type

Whether a value may be given where a type is asked for.  Values of undefined
types are not looked at.  A custom scalar takes every value, except that the items
of a list are looked at one by one.  A value that is no list may stand for a list
of itself.  There are no variables that a schema could refer to.
-/

namespace Supergraph
namespace Schema

/-- An integer may be given for this type. -/
def takesInt (t : TypeDef) (l : IntLiteral) : Bool :=
  t.isCustomScalar
    || (t.isBuiltInScalar
      && (t.name == BuiltIn.id
        || (t.name == BuiltIn.int && Number.fitsInt32 l.text.toList)
        || (t.name == BuiltIn.float && Number.fitsDouble l.text.toList)))

/-- A float may be given for this type. -/
def takesFloat (t : TypeDef) (l : FloatLiteral) : Bool :=
  t.isCustomScalar
    || (t.isBuiltInScalar && t.name == BuiltIn.float && Number.fitsDouble l.text.toList)

/-- A string may be given for this type. -/
def takesString (t : TypeDef) : Bool :=
  t.isCustomScalar
    || (t.isBuiltInScalar && (t.name == BuiltIn.string || t.name == BuiltIn.id))

/-- A boolean may be given for this type. -/
def takesBoolean (t : TypeDef) : Bool :=
  t.isCustomScalar || (t.isBuiltInScalar && t.name == BuiltIn.boolean)

/-- An enum value may be given for this type. -/
def takesEnum (t : TypeDef) (n : Name) : Bool :=
  t.isCustomScalar || t.body.values.any (fun v => v.name == n)

/-- The required fields among these are given, and not as null. -/
def givesRequired (defs : List InputValue) (fields : List (Name × Value)) : Bool :=
  defs.all fun d =>
    !d.isRequired
      || (fields.any (fun f => f.1 == d.name)
        && !fields.any (fun f => f.1 == d.name && f.2.isNull))

mutual

/-- The value may be given where this type is asked for. -/
def conforms (s : Schema) : Value → TypeRef → Bool
  | v, t =>
      match s.type? t.innermost with
      | none => true
      | some d =>
          match v with
          | .null => !t.isNonNull
          | .int l => takesInt d l
          | .float l => takesFloat d l
          | .string _ => takesString d
          | .boolean _ => takesBoolean d
          | .enum n => takesEnum d n
          | .var _ => false
          | .list items =>
              (t.isList || d.isCustomScalar) && d.isInput && conformAll s items t.item
          | .object fields =>
              d.isCustomScalar
                || (d.kind == .inputObject
                  && givesRequired d.body.inputFields fields
                  && conformFields s d.body.inputFields [] fields)

/-- Every value may be given where this type is asked for. -/
def conformAll (s : Schema) : List Value → TypeRef → Bool
  | [], _ => true
  | v :: vs, t => conforms s v t && conformAll s vs t

/-- Every field is known, and the first of each name has a value of its type. -/
def conformFields
    (s : Schema)
    (defs : List InputValue)
    (seen : List Name) :
    List (Name × Value) → Bool
  | [] => true
  | (n, v) :: fs =>
      (match lookup n defs with
        | none => false
        | some d => seen.contains n || conforms s v d.type)
        && conformFields s defs (n :: seen) fs

end

end Schema
end Supergraph
