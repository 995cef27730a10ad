import Supergraph.Token.Keyword

/-!
# Type references

A type reference names a type and wraps it in lists; every level may be marked
non-null.  `innermost` is the type it names in the end, and `mapInnermost`
exchanges that name and keeps every wrapping.
-/

namespace Supergraph

/-- A reference to a type, as it stands behind a colon. -/
inductive TypeRef where
  | named (n : Name) (nonNull : Bool)
  | list (item : TypeRef) (nonNull : Bool)
  deriving DecidableEq

namespace TypeRef

/-- The type that the reference names in the end. -/
def innermost : TypeRef → Name
  | .named n _ => n
  | .list item _ => item.innermost

/-- Null is not among the values. -/
def isNonNull : TypeRef → Bool
  | .named _ b => b
  | .list _ b => b

/-- The values are lists. -/
def isList : TypeRef → Bool
  | .named _ _ => false
  | .list _ _ => true

/-- The type of the items; a type that is no list is its own item type. -/
def item : TypeRef → TypeRef
  | .named n b => .named n b
  | .list t _ => t

/-- The same reference with null among the values. -/
def nullable : TypeRef → TypeRef
  | .named n _ => .named n false
  | .list t _ => .list t false

/-- The same reference without null. -/
def required : TypeRef → TypeRef
  | .named n _ => .named n true
  | .list t _ => .list t true

/-- The same wrapping around another name, where there is one for it. -/
def mapInnermost? (f : Name → Option Name) : TypeRef → Option TypeRef
  | .named n b => (f n).map (fun m => .named m b)
  | .list t b => (t.mapInnermost? f).map (fun u => .list u b)

/-- The wrapping alone, from the outside in: list or name, and non-null or not. -/
def wrapping : TypeRef → List Bool
  | .named _ b => [b]
  | .list t b => b :: t.wrapping

theorem innermost_of_mapInnermost?
    {f : Name → Option Name}
    {t u : TypeRef}
    (h : t.mapInnermost? f = some u) :
    f t.innermost = some u.innermost := by
  induction t generalizing u with
  | named n b =>
      simp only [mapInnermost?, Option.map_eq_some_iff] at h
      obtain ⟨m, hm, rfl⟩ := h
      exact hm
  | list t b ih =>
      simp only [mapInnermost?, Option.map_eq_some_iff] at h
      obtain ⟨v, hv, rfl⟩ := h
      have := ih hv
      simpa only [innermost] using this

theorem wrapping_of_mapInnermost?
    {f : Name → Option Name}
    {t u : TypeRef}
    (h : t.mapInnermost? f = some u) :
    u.wrapping = t.wrapping := by
  induction t generalizing u with
  | named n b =>
      simp only [mapInnermost?, Option.map_eq_some_iff] at h
      obtain ⟨m, _, rfl⟩ := h
      rfl
  | list t b ih =>
      simp only [mapInnermost?, Option.map_eq_some_iff] at h
      obtain ⟨v, hv, rfl⟩ := h
      simp [wrapping, ih hv]

/-- The mark behind a non-null type. -/
def bangLayout (b : Bool) : Layout :=
  if b then Layout.punct .bang else []

/-- The reference as it is written. -/
def layout : TypeRef → Layout
  | .named n b => Layout.name n ++ bangLayout b
  | .list t b => Layout.punct .leftBracket ++ t.layout ++ Layout.punct .rightBracket ++ bangLayout b

/-- The text of the reference. -/
def text (t : TypeRef) : String :=
  t.layout.render

/-- Reads a reference, given a reader for the item type of a list. -/
def readWith (item : Reader TypeRef) : Reader TypeRef := do
  if ← Reader.acceptPunct .leftBracket then
    let t ← item
    Reader.punct .rightBracket
    let b ← Reader.acceptPunct .bang
    return .list t b
  else
    let n ← Reader.name
    let b ← Reader.acceptPunct .bang
    return .named n b

/-- Reads a reference with at most `depth` lists around the name. -/
def readWithin : Nat → Reader TypeRef
  | 0 => readWith failure
  | depth + 1 => readWith (readWithin depth)

/-- Reads a reference. -/
def read : Reader TypeRef :=
  readWithin Reader.maxNesting

end TypeRef

end Supergraph
