/-!
# Naming configurations

A configuration says which prefix the names of the fusion vocabulary get, and
whether the name of the root directive gets it too.  An empty prefix is the same
as none, and without a prefix the second question does not arise: `normalize`
makes that explicit, and two configurations mean the same if their normal forms
are equal.
-/

namespace Supergraph

/-- How the names of the fusion vocabulary are formed. -/
structure Config where
  /-- The prefix of every type and directive, if any. -/
  qualifier : Option String
  /-- The root directive has the prefix as well. -/
  qualifyRoot : Bool
  deriving DecidableEq

namespace Config

/-- No prefix. -/
def unqualified : Config where
  qualifier := none
  qualifyRoot := false

/-- The prefix, unless it is empty. -/
def effectiveQualifier (c : Config) : Option String :=
  match c.qualifier with
  | some s => if s = "" then none else some s
  | none => none

/-- Drops an empty prefix, and then the second answer if there is no prefix. -/
def normalize (c : Config) : Config :=
  let q := if c.qualifier = some "" then none else c.qualifier
  { qualifier := q
    qualifyRoot := if q = none then false else c.qualifyRoot }

/-- The normal form of a configuration with these parts. -/
def of (qualifier : Option String) (qualifyRoot : Bool) : Config :=
  normalize ⟨qualifier, qualifyRoot⟩

/-- The configuration is its own normal form. -/
def isNormal (c : Config) : Bool :=
  c.normalize == c

/-- The normal form is told by the prefix that counts. -/
theorem normalize_eq
    (c : Config) :
    c.normalize = ⟨c.effectiveQualifier, c.effectiveQualifier.isSome && c.qualifyRoot⟩ := by
  rcases c with ⟨_ | s, b⟩
  · rfl
  · by_cases h : s = "" <;> simp [normalize, effectiveQualifier, h]

theorem effectiveQualifier_normalize
    (c : Config) :
    c.normalize.effectiveQualifier = c.effectiveQualifier := by
  rcases c with ⟨_ | s, b⟩
  · rfl
  · by_cases h : s = "" <;> simp [normalize, effectiveQualifier, h]

theorem normalize_normalize
    (c : Config) :
    c.normalize.normalize = c.normalize := by
  rw [normalize_eq c.normalize, effectiveQualifier_normalize, normalize_eq c]
  simp

/-- The configuration in words, as error messages have it. -/
def describe (c : Config) : String :=
  match c.effectiveQualifier with
  | none => "no prefix"
  | some s =>
      "prefix \"" ++ s ++ "\" (prefixSelf: " ++ (if c.qualifyRoot then "true" else "false") ++ ")"

end Config

end Supergraph
