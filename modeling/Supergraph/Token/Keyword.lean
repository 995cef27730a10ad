import Supergraph.Token.Reader
import Supergraph.Layout

/-!
# Keywords

The names with a meaning of their own in the grammar.  Outside of the places
where the grammar looks for them they are names like any other.
-/

namespace Supergraph

/-- The words that the grammar knows. -/
inductive Keyword where
  | schema
  | extend
  | scalar
  | type
  | implements
  | interface
  | union
  | enum
  | input
  | directive
  | repeatable
  | on
  | query
  | mutation
  | subscription
  | fragment
  | trueWord
  | falseWord
  | nullWord
  deriving DecidableEq

namespace Keyword

/-- The name that is this word. -/
def name : Keyword → Name
  | .schema => ⟨"schema", by decide⟩
  | .extend => ⟨"extend", by decide⟩
  | .scalar => ⟨"scalar", by decide⟩
  | .type => ⟨"type", by decide⟩
  | .implements => ⟨"implements", by decide⟩
  | .interface => ⟨"interface", by decide⟩
  | .union => ⟨"union", by decide⟩
  | .enum => ⟨"enum", by decide⟩
  | .input => ⟨"input", by decide⟩
  | .directive => ⟨"directive", by decide⟩
  | .repeatable => ⟨"repeatable", by decide⟩
  | .on => ⟨"on", by decide⟩
  | .query => ⟨"query", by decide⟩
  | .mutation => ⟨"mutation", by decide⟩
  | .subscription => ⟨"subscription", by decide⟩
  | .fragment => ⟨"fragment", by decide⟩
  | .trueWord => ⟨"true", by decide⟩
  | .falseWord => ⟨"false", by decide⟩
  | .nullWord => ⟨"null", by decide⟩

/-- All words, each once. -/
def all : List Keyword :=
  [.schema, .extend, .scalar, .type, .implements, .interface, .union, .enum, .input,
    .directive, .repeatable, .on, .query, .mutation, .subscription, .fragment,
    .trueWord, .falseWord, .nullWord]

/-- The word that a name is. -/
def ofName? (n : Name) : Option Keyword :=
  all.find? (fun k => k.name == n)

/-- The token of a word. -/
def token (k : Keyword) : Token :=
  .name k.name

/-- Takes this word or refuses. -/
def read (k : Keyword) : Reader Unit :=
  Reader.expect k.token

/-- Takes this word if it is next, and says whether it was. -/
def accept (k : Keyword) : Reader Bool :=
  Reader.accept k.token

/-- The word as it is written. -/
def layout (k : Keyword) : Layout :=
  Layout.name k.name

end Keyword

end Supergraph
