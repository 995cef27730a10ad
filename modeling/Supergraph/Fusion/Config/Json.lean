import Supergraph.Fusion.Config
import Supergraph.Json

/-!
# Configurations in JSON

A configuration is written as an object with the entries `prefix` and
`prefixSelf`, or as an array of the two in this order.  What is left out is no
prefix and `false`; anything else is refused.  The configuration is kept as it
was written and not normalized.
-/

namespace Supergraph
namespace Config

/-- The entry for the prefix. -/
def qualifierKey : String := "prefix"

/-- The entry for the root directive. -/
def qualifyRootKey : String := "prefixSelf"

/-- A prefix is a string or null. -/
def qualifierOfJson? : Json → Option (Option String)
  | .null => some none
  | .string s => some (some s)
  | _ => none

/-- The answer for the root directive is a boolean. -/
def qualifyRootOfJson? : Json → Option Bool
  | .boolean b => some b
  | _ => none

/-- The value of an entry that occurs at most once, or a default. -/
def entry? {α : Type}
    (k : String)
    (read : Json → Option α)
    (default : α)
    (es : List (String × Json)) :
    Option α :=
  match es.filter (fun e => e.1 == k) with
  | [] => some default
  | [(_, v)] => read v
  | _ => none

/-- The configuration written as an object or as an array. -/
def ofJson? : Json → Option Config
  | .object es =>
      if es.all (fun e => e.1 == qualifierKey || e.1 == qualifyRootKey) then do
        let qualifier ← entry? qualifierKey qualifierOfJson? none es
        let qualifyRoot ← entry? qualifyRootKey qualifyRootOfJson? false es
        return { qualifier, qualifyRoot }
      else none
  | .array [] => some ⟨none, false⟩
  | .array [q] => do
      return ⟨← qualifierOfJson? q, false⟩
  | .array [q, r] => do
      return ⟨← qualifierOfJson? q, ← qualifyRootOfJson? r⟩
  | _ => none

/-- The configuration with this JSON text. -/
def parse? (s : String) : Option Config :=
  (Json.parse? s).bind ofJson?

end Config
end Supergraph
