import Supergraph.Fusion.Vocabulary

/-!
# Resolver kinds

How a subgraph looks up entities: one at a time, many at a time, or as a stream.
In a schema a kind is a value of the resolver kind enum; reading a kind from that
value gives the kind back (`ofText_enumValue`).
-/

namespace Supergraph

/-- How a subgraph looks up entities. -/
inductive ResolverKind where
  | single
  | batch
  | subscribe
  deriving DecidableEq

namespace ResolverKind

/-- All kinds, in the order of the enum. -/
def all : List ResolverKind :=
  [.single, .batch, .subscribe]

/-- The enum value of a kind. -/
def enumValue : ResolverKind → Name
  | .single => ⟨"FETCH", by decide⟩
  | .batch => ⟨"BATCH", by decide⟩
  | .subscribe => ⟨"SUBSCRIBE", by decide⟩

/-- The kind with this text. -/
def ofText : String → Except FusionError ResolverKind
  | "FETCH" => .ok .single
  | "BATCH" => .ok .batch
  | "SUBSCRIBE" => .ok .subscribe
  | s => .error (.unknownResolverKind s)

/-- The kind that a value stands for: an enum value, or its text. -/
def ofValue : Value → Except FusionError ResolverKind
  | .enum n => ofText n.text
  | .string s => ofText s
  | v => .error (.resolverKindValue v)

theorem ofText_enumValue
    (k : ResolverKind) :
    ofText k.enumValue.text = .ok k := by
  cases k <;> rfl

end ResolverKind

end Supergraph
