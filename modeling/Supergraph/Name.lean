/-!
# Names

A GraphQL name is a letter or an underscore followed by letters, digits and
underscores, all of them ASCII.  `Name` carries the proof that its text is
spelled so, and two names are equal as soon as their texts are.

A name is *qualified* by putting another name and an underscore in front of it;
the result is a name again.
-/

namespace Supergraph

/-- Letters and the underscore may begin a name. -/
def isNameStart (c : Char) : Bool :=
  c.isAlpha || c == '_'

/-- Letters, digits and the underscore may continue a name. -/
def isNameChar (c : Char) : Bool :=
  c.isAlphanum || c == '_'

/-- The characters spell a name. -/
def spellsName : List Char → Bool
  | [] => false
  | c :: cs => isNameStart c && cs.all isNameChar

theorem isNameChar_of_isNameStart
    {c : Char}
    (h : isNameStart c = true) :
    isNameChar c = true := by
  simp only [isNameStart, isNameChar, Char.isAlphanum, Bool.or_eq_true] at *
  rcases h with h | h
  · exact Or.inl (Or.inl h)
  · exact Or.inr h

/-- Every character of a name may continue one. -/
theorem all_isNameChar_of_spellsName
    {cs : List Char}
    (h : spellsName cs = true) :
    cs.all isNameChar = true := by
  cases cs with
  | nil => rfl
  | cons c cs =>
      simp only [spellsName, Bool.and_eq_true] at h
      simp [List.all_cons, isNameChar_of_isNameStart h.1, h.2]

/-- A name followed by characters that continue a name is a name. -/
theorem spellsName_append
    {cs ds : List Char}
    (hcs : spellsName cs = true)
    (hds : ds.all isNameChar = true) :
    spellsName (cs ++ ds) = true := by
  cases cs with
  | nil => simp [spellsName] at hcs
  | cons c cs =>
      simp only [spellsName, Bool.and_eq_true] at hcs
      simp only [List.cons_append, spellsName, List.all_append, Bool.and_eq_true]
      exact ⟨hcs.1, hcs.2, hds⟩

/-- A text that is spelled as a GraphQL name. -/
structure Name where
  text : String
  spelled : spellsName text.toList = true
  deriving DecidableEq

namespace Name

theorem ext_text
    {a b : Name}
    (h : a.text = b.text) :
    a = b := by
  cases a
  cases b
  simp_all

/-- The name with this text, if the text is spelled as one. -/
def ofString? (s : String) : Option Name :=
  if h : spellsName s.toList = true then some ⟨s, h⟩ else none

theorem ofString?_text
    (n : Name) :
    ofString? n.text = some n := by
  simp [ofString?, n.spelled]

theorem text_of_ofString?
    {s : String}
    {n : Name}
    (h : ofString? s = some n) :
    n.text = s := by
  unfold ofString? at h
  split at h
  · cases h
    rfl
  · cases h

/-- The name `q_n`. -/
def qualify (q n : Name) : Name where
  text := q.text ++ "_" ++ n.text
  spelled := by
    rw [String.toList_append, String.toList_append, List.append_assoc]
    refine spellsName_append q.spelled ?_
    rw [List.all_append, all_isNameChar_of_spellsName n.spelled]
    rfl

/-- Names that begin with two underscores are reserved for introspection. -/
def isReserved (n : Name) : Bool :=
  match n.text.toList with
  | '_' :: '_' :: _ => true
  | _ => false

end Name

end Supergraph
