import Supergraph.Fusion.Template
import Mathlib.Data.List.Nodup

/-!
# The names of a vocabulary are distinct

Two types of a vocabulary have different names, and so have two directives; no
type is named like a scalar of the language.  A prefix sets a name apart because
it brings an underscore with it, which no base name has; so the last underscore of a
qualified name ends the prefix.

A vocabulary is determined by its configuration, and it is the vocabulary that
its configuration leads to.
-/

namespace Supergraph

/-- Where the separator does not come again, it divides a list in one way. -/
theorem eq_of_append_separator
    {α : Type}
    {c : α}
    {xs ys us vs : List α}
    (hus : c ∉ us)
    (hvs : c ∉ vs)
    (h : xs ++ c :: us = ys ++ c :: vs) :
    xs = ys ∧ us = vs := by
  rcases List.append_eq_append_iff.mp h with ⟨zs, rfl, hz⟩ | ⟨zs, rfl, hz⟩
  · cases zs with
    | nil => exact ⟨by simp, (List.cons.inj hz).2⟩
    | cons z zs =>
        obtain ⟨-, rfl⟩ := List.cons.inj hz
        exact absurd (by simp) hus
  · cases zs with
    | nil => exact ⟨by simp, (List.cons.inj hz).2.symm⟩
    | cons z zs =>
        obtain ⟨-, rfl⟩ := List.cons.inj hz
        exact absurd (by simp) hvs

namespace Name

/-- The name has an underscore in it. -/
def hasUnderscore (n : Name) : Bool :=
  n.text.toList.contains '_'

theorem hasUnderscore_qualify
    (q n : Name) :
    (q.qualify n).hasUnderscore = true := by
  simp [hasUnderscore, qualify, String.toList_append]

theorem qualify_injective
    {q n m : Name}
    (h : q.qualify n = q.qualify m) :
    n = m := by
  have ht : q.text ++ "_" ++ n.text = q.text ++ "_" ++ m.text := congrArg Name.text h
  have hl := congrArg String.toList ht
  rw [String.toList_append, String.toList_append (s := q.text ++ "_")] at hl
  exact ext_text (String.toList_injective (List.append_cancel_left hl))

/-- The last underscore of a qualified name ends its prefix, if the name behind it has none. -/
theorem eq_of_qualify
    {p q n m : Name}
    (hn : n.hasUnderscore = false)
    (hm : m.hasUnderscore = false)
    (h : p.qualify n = q.qualify m) :
    p = q ∧ n = m := by
  have texts : p.text ++ "_" ++ n.text = q.text ++ "_" ++ m.text := congrArg text h
  have characters : p.text.toList ++ '_' :: n.text.toList =
      q.text.toList ++ '_' :: m.text.toList := by
    simpa [String.toList_append] using congrArg String.toList texts
  have bare : ∀ {k : Name}, k.hasUnderscore = false → '_' ∉ k.text.toList := by
    intro k hk
    simpa [hasUnderscore] using hk
  obtain ⟨left, right⟩ := eq_of_append_separator (bare hn) (bare hm) characters
  exact ⟨ext_text (String.toList_injective left), ext_text (String.toList_injective right)⟩

theorem text_ne_empty
    (n : Name) :
    n.text ≠ "" := by
  intro h
  have hn := n.spelled
  rw [h] at hn
  simp [spellsName] at hn

end Name

namespace FusionType

theorem mem_all
    (t : FusionType) :
    t ∈ all := by
  cases t <;> decide

theorem baseName_injective
    {t u : FusionType}
    (h : t.baseName = u.baseName) :
    t = u :=
  List.inj_on_of_nodup_map (show (all.map baseName).Nodup by decide)
    (mem_all t) (mem_all u) h

theorem hasUnderscore_baseName
    (t : FusionType) :
    t.baseName.hasUnderscore = false := by
  cases t <;> decide

end FusionType

namespace FusionDirective

theorem mem_all
    (d : FusionDirective) :
    d ∈ all := by
  cases d <;> decide

theorem baseName_injective
    {d e : FusionDirective}
    (h : d.baseName = e.baseName) :
    d = e :=
  List.inj_on_of_nodup_map (show (all.map baseName).Nodup by decide)
    (mem_all d) (mem_all e) h

theorem hasUnderscore_baseName
    (d : FusionDirective) :
    d.baseName.hasUnderscore = false := by
  cases d <;> decide

end FusionDirective

namespace Vocabulary

section Names

variable {v : Vocabulary}

theorem qualify_injective
    {n m : Name}
    (h : v.qualify n = v.qualify m) :
    n = m := by
  unfold qualify at h
  split at h
  · exact Name.qualify_injective h
  · exact h

/-- The vocabulary leaves a name as it is, or gives it an underscore. -/
theorem qualify_eq_or
    (v : Vocabulary)
    (n : Name) :
    v.qualify n = n ∨ (v.qualify n).hasUnderscore = true := by
  unfold qualify
  split
  · exact Or.inr (Name.hasUnderscore_qualify _ n)
  · exact Or.inl rfl

theorem typeName_injective
    {t u : FusionType}
    (h : v.typeName t = v.typeName u) :
    t = u :=
  FusionType.baseName_injective (qualify_injective h)

theorem directiveName_injective
    {d e : FusionDirective}
    (h : v.directiveName d = v.directiveName e) :
    d = e := by
  -- Only an unprefixed root can differ from the others in having no prefix.
  have apart : ∀ {d : FusionDirective} {n : Name}, n.hasUnderscore = false →
      v.qualify d.baseName = n → d.baseName = n := by
    intro d n hn hd
    rcases qualify_eq_or v d.baseName with hq | hq
    · exact hq.symm.trans hd
    · rw [hd, hn] at hq
      cases hq
  apply FusionDirective.baseName_injective
  unfold directiveName at h
  split at h <;> split at h
  · exact h
  · exact (apart d.hasUnderscore_baseName h.symm).symm
  · exact apart e.hasUnderscore_baseName h
  · exact qualify_injective h

theorem nodup_typeNames
    (v : Vocabulary) :
    v.typeNames.Nodup :=
  List.Nodup.map (fun _ _ => typeName_injective) (by decide)

theorem nodup_map_directiveName
    (v : Vocabulary)
    {ks : List FusionDirective}
    (h : ks.Nodup) :
    (ks.map v.directiveName).Nodup :=
  List.Nodup.map (fun _ _ => directiveName_injective) h

theorem typeName_mem
    (v : Vocabulary)
    (t : FusionType) :
    v.typeName t ∈ v.typeNames :=
  List.mem_map_of_mem t.mem_all

theorem directiveName_mem
    (v : Vocabulary)
    (d : FusionDirective) :
    v.directiveName d ∈ v.directiveNames :=
  List.mem_map_of_mem d.mem_all

theorem exists_of_mem_typeNames
    {n : Name}
    (h : n ∈ v.typeNames) :
    ∃ t, v.typeName t = n := by
  obtain ⟨t, _, ht⟩ := List.mem_map.mp h
  exact ⟨t, ht⟩

theorem exists_of_mem_directiveNames
    {n : Name}
    (h : n ∈ v.directiveNames) :
    ∃ d, v.directiveName d = n := by
  obtain ⟨d, _, hd⟩ := List.mem_map.mp h
  exact ⟨d, hd⟩

/-- Templates may refer to scalars of the language only. -/
theorem mem_scalarNames_of_builtIn
    {n : Name}
    (h : n ∈ builtInScalars) :
    n ∈ BuiltIn.scalarNames := by
  revert n
  decide

/-- No type of the vocabulary is named like a scalar of the language. -/
theorem not_mem_typeNames_of_scalar
    {n : Name}
    (h : n ∈ BuiltIn.scalarNames) :
    n ∉ v.typeNames := by
  intro hn
  obtain ⟨t, rfl⟩ := exists_of_mem_typeNames hn
  have plain : ∀ m ∈ BuiltIn.scalarNames, m.hasUnderscore = false := by decide
  have apart : ∀ t : FusionType, t.baseName ∉ BuiltIn.scalarNames := by
    intro t
    cases t <;> decide
  rcases qualify_eq_or v t.baseName with hq | hq
  · exact apart t (hq ▸ h)
  · have := plain _ h
    rw [typeName, hq] at this
    cases this

end Names

section Configurations

theorem config_injective
    {v w : Vocabulary}
    (h : v.config = w.config) :
    v = w := by
  obtain ⟨p, b, hb⟩ := v
  obtain ⟨q, c, hc⟩ := w
  obtain ⟨hpq, rfl⟩ : p.map Name.text = q.map Name.text ∧ b = c := by
    simpa [config] using h
  have hinj : Function.Injective Name.text := fun _ _ => Name.ext_text
  obtain rfl := Option.map_injective hinj hpq
  rfl

/-- A vocabulary is the one that its configuration leads to. -/
theorem ofConfig_config
    (v : Vocabulary) :
    ofConfig v.config = .ok v := by
  obtain ⟨p, b, hb⟩ := v
  cases p with
  | none =>
      have : b = false := by simpa using hb
      subst this
      rfl
  | some q =>
      have hq : (config ⟨some q, b, hb⟩).effectiveQualifier = some q.text := by
        simp [config, Config.effectiveQualifier, q.text_ne_empty]
      simp only [ofConfig, hq, Name.ofString?_text]
      rfl

end Configurations

section Samples

/-- The vocabulary in which everything has this prefix, if there is one. -/
def ofQualifier (q : Option Name) : Vocabulary :=
  ⟨q, q.isSome, id⟩

/-- The vocabulary without a prefix. -/
def bare : Vocabulary :=
  ofQualifier none

/-- The vocabulary in which everything has the prefix `p`. -/
def underP : Vocabulary :=
  ofQualifier (some ⟨"p", by decide⟩)

end Samples

end Vocabulary

end Supergraph
