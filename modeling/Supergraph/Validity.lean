import Supergraph.Validity.Application
import Supergraph.Validity.Cycle
import Supergraph.Validity.Implementation
import Supergraph.Validity.Reference

/-!
# Valid schemas

A schema is valid if all the rules of the modules of this folder hold.  A valid
schema is *settled* by taking away the built-in scalars that nothing refers to,
and by adding those that are referred to and missing.
-/

namespace Supergraph
namespace Schema

/-- The schema follows all the rules. -/
def isValid (s : Schema) : Bool :=
  s.rootsValid
    && s.allNamesFree
    && s.allArgumentNamesDistinct
    && s.allPartsValid
    && s.allImplement
    && s.inputObjectsFinite
    && s.directivesFinite
    && s.allApplicationsFit

/-- The types that arguments or input fields refer to. -/
def argumentTypeNames (vs : List InputValue) : List Name :=
  vs.map (fun v => v.type.innermost)

/-- The types that the parts of a type refer to. -/
def partTypeNames (t : TypeDef) : List Name :=
  t.body.fields.flatMap (fun f => f.type.innermost :: argumentTypeNames f.arguments)
    ++ argumentTypeNames t.body.inputFields

/-- The types that any field, argument or input field refers to. -/
def referredTypes (s : Schema) : List Name :=
  s.types.items.flatMap partTypeNames
    ++ s.directives.items.flatMap (fun d => argumentTypeNames d.arguments)

/-- The schema with just those built-in scalars that something refers to. -/
def settle (s : Schema) : Schema :=
  let referred := s.referredTypes
  let kept := s.types.filter (fun t => !t.isBuiltInScalar || referred.contains t.name)
  let missing := BuiltIn.scalarNames.filter (fun n => referred.contains n && !s.types.contains n)
  s.withTypes (missing.foldl (fun ts n => ts.put (BuiltIn.scalar n)) kept)

/-- The settled schema, if it is valid. -/
def validated? (s : Schema) : Option Schema :=
  if s.isValid then some s.settle else none

end Schema
end Supergraph
