import Supergraph.Schema

/-!
# Cycles and chains

Two ways of referring must neither lead back to where they began nor be followed
over too many definitions: input objects hold others through fields that have to be
there, and directive definitions refer to others through their arguments.

For input objects one question settles both, since a cycle can be followed for
ever: whether anything is left if they are followed as far as is allowed
(`heldAt`).  For directives every way is followed on its own (`leadsOn`).  A type or
another directive may come up again on such a way, only the directive that it began
with may not.  Built-in types are passed through, to the directives on them, but
are no members of a chain.
-/

namespace Supergraph

/-- A chain of definitions that refer to one another has at most so many members. -/
def maxChain : Nat := 32

namespace Schema

section InputObjects

/-- The field always holds an object of its own type. -/
def alwaysHolds (v : InputValue) : Option Name :=
  match v.type with
  | .named n true => some n
  | _ => none

/-- There is an input object of this name. -/
def isInputObject (s : Schema) (n : Name) : Bool :=
  match s.type? n with
  | some t => t.kind == .inputObject
  | none => false

/-- The input objects that every object of this type holds. -/
def heldBy (s : Schema) (n : Name) : List Name :=
  match s.type? n with
  | some t => (t.body.inputFields.filterMap alwaysHolds).filter s.isInputObject
  | none => []

/-- The input objects that these hold, so many levels down. -/
def heldAt (s : Schema) : Nat → List Name → List Name
  | 0, ns => ns
  | levels + 1, ns => s.heldAt levels (ns.flatMap s.heldBy).eraseDups

/-- No chain of input objects that hold one another is too long. -/
def inputObjectsFinite (s : Schema) : Bool :=
  (s.heldAt maxChain (s.types.keys.filter s.isInputObject)).isEmpty

end InputObjects

section Directives

/-- A definition that a directive definition may lead to. -/
inductive Referent where
  | type (n : Name)
  | directive (n : Name)
  deriving DecidableEq

/-- The referent is a directive. -/
def Referent.isDirective : Referent → Bool
  | .type _ => false
  | .directive _ => true

/-- What applications lead to: the definitions of their directives. -/
def directiveReferents (s : Schema) (ds : List Directive) : List Referent :=
  (ds.filter (fun d => s.directives.contains d.name)).map (fun d => .directive d.name)

/-- What the directives applied to a type and to its values lead to. -/
def appliedReferents (s : Schema) (t : TypeDef) : List Referent :=
  s.directiveReferents (t.applications ++ t.body.values.flatMap EnumValue.directives)

/-- What a reference to a type leads to.  A built-in type is no member of a chain, so
the reference leads at once to what is applied to the type. -/
def typeReferents (s : Schema) (n : Name) : List Referent :=
  match s.type? n with
  | some t => if t.builtIn then s.appliedReferents t else [.type n]
  | none => []

/-- What arguments or input fields lead to: the directives on them, and their
types. -/
def inputReferents (s : Schema) (vs : List InputValue) : List Referent :=
  vs.flatMap (fun v => s.directiveReferents v.directives ++ s.typeReferents v.type.innermost)

/-- What a definition leads to. -/
def referents (s : Schema) : Referent → List Referent
  | .directive n =>
      match s.directive? n with
      | some d => s.inputReferents d.arguments
      | none => []
  | .type n =>
      match s.type? n with
      | some t => s.appliedReferents t ++ s.inputReferents t.body.inputFields
      | none => []

/-- The chain has neither too many directives nor too many types. -/
def isShortChain (chain : List Referent) : Bool :=
  chain.countP Referent.isDirective ≤ maxChain
    && chain.countP (fun r => !r.isDirective) ≤ maxChain

/-- From here on, no way leads back to `start` or gets too long.  `passed` is the
way up to here; what has been passed is not followed again.  A way of more than
`steps` steps is too long. -/
def leadsOn (s : Schema) (start : Referent) : Nat → List Referent → Referent → Bool
  | 0, _, _ => false
  | steps + 1, passed, r =>
      if passed.contains r then r != start
      else
        let passed := r :: passed
        isShortChain passed && (s.referents r).all (s.leadsOn start steps passed)

/-- No way from the directive definition leads back to it or gets too long.  A chain
has `2 * maxChain` members at the most. -/
def directiveLeadsOn (s : Schema) (n : Name) : Bool :=
  let start := Referent.directive n
  (s.referents start).all (s.leadsOn start (2 * maxChain) [start])

/-- No directive definition leads back to itself or too far. -/
def directivesFinite (s : Schema) : Bool :=
  s.directives.keys.all s.directiveLeadsOn

end Directives

end Schema
end Supergraph
