import Supergraph.Proofs.Vocabulary

/-!
# The names of different vocabularies

No base name has an underscore, so that the last underscore of a qualified name ends its
prefix.  Names under different prefixes are therefore different, whatever the prefixes look
like; only a root directive without a prefix is common to vocabularies
(`qualifier_eq_of_typeName`, `eq_root_of_directiveName`), and the names together determine
the vocabulary (`eq_of_names`).

`names_apart` says all of this of configurations, for which `Config.typeTexts` and
`Config.directiveTexts` spell the names out.
-/

namespace Supergraph

namespace Config

/-- The text of a name behind the prefix, if there is one. -/
def spell (c : Config) (n : Name) : String :=
  match c.effectiveQualifier with
  | some s => s ++ "_" ++ n.text
  | none => n.text

/-- The texts of the names of types. -/
def typeTexts (c : Config) : List String :=
  FusionType.all.map (fun t => c.spell t.baseName)

/-- The texts of the names of directives; that of the root directive has the prefix on request
only. -/
def directiveTexts (c : Config) : List String :=
  FusionDirective.all.map fun d =>
    if d = .root ∧ c.qualifyRoot = false then d.baseName.text else c.spell d.baseName

end Config

namespace Vocabulary

section Apart

variable {v w : Vocabulary}

/-- A name without an underscore is told from its prefix. -/
theorem eq_of_qualify
    {n m : Name}
    (hn : n.hasUnderscore = false)
    (hm : m.hasUnderscore = false)
    (h : v.qualify n = w.qualify m) :
    v.qualifier = w.qualifier ∧ n = m := by
  unfold qualify at h
  cases hv : v.qualifier with
  | none =>
      cases hw : w.qualifier with
      | none =>
          rw [hv, hw] at h
          exact ⟨rfl, h⟩
      | some q =>
          rw [hv, hw] at h
          have underscore := q.hasUnderscore_qualify m
          rw [← show n = q.qualify m from h, hn] at underscore
          cases underscore
  | some p =>
      cases hw : w.qualifier with
      | none =>
          rw [hv, hw] at h
          have underscore := p.hasUnderscore_qualify n
          rw [show p.qualify n = m from h, hm] at underscore
          cases underscore
      | some q =>
          rw [hv, hw] at h
          obtain ⟨rfl, same⟩ := Name.eq_of_qualify hn hm h
          exact ⟨rfl, same⟩

/-- Vocabularies with a common name of a type have the same prefix. -/
theorem qualifier_eq_of_typeName
    {t u : FusionType}
    (h : v.typeName t = w.typeName u) :
    v.qualifier = w.qualifier :=
  (eq_of_qualify t.hasUnderscore_baseName u.hasUnderscore_baseName h).1

/-- The only common name of directives under different prefixes is that of the root directive
without any. -/
theorem eq_root_of_directiveName
    (different : v.qualifier ≠ w.qualifier)
    {d e : FusionDirective}
    (h : v.directiveName d = w.directiveName e) :
    v.directiveName d = FusionDirective.root.baseName := by
  by_cases hd : d = .root ∧ v.qualifyRoot = false
  · rw [directiveName, if_pos hd, hd.1]
  · by_cases he : e = .root ∧ w.qualifyRoot = false
    · rw [h, directiveName, if_pos he, he.1]
    · rw [directiveName, directiveName, if_neg hd, if_neg he] at h
      exact absurd (eq_of_qualify d.hasUnderscore_baseName e.hasUnderscore_baseName h).1 different

/-- Whether the root directive is prefixed can be seen from its name. -/
theorem qualifyRoot_eq_of_directiveName
    (h : v.directiveName .root = w.directiveName .root) :
    v.qualifyRoot = w.qualifyRoot := by
  have seen : ∀ x : Vocabulary, (x.directiveName .root).hasUnderscore = x.qualifyRoot := by
    intro x
    obtain ⟨q, b, hb⟩ := x
    cases b with
    | false => exact FusionDirective.hasUnderscore_baseName .root
    | true =>
        obtain ⟨q, rfl⟩ := Option.isSome_iff_exists.mp (hb rfl)
        exact q.hasUnderscore_qualify _
  rw [← seen v, ← seen w, h]

/-- The names determine the vocabulary. -/
theorem eq_of_names
    (h : v.typeNames ++ v.directiveNames = w.typeNames ++ w.directiveNames) :
    v = w := by
  obtain ⟨types, directives⟩ := List.append_inj h rfl
  have type := List.map_inj_left.mp types _ (FusionType.mem_all .selection)
  have root := List.map_inj_left.mp directives _ (FusionDirective.mem_all .root)
  have qualifier := qualifier_eq_of_typeName type
  have qualifyRoot := qualifyRoot_eq_of_directiveName root
  obtain ⟨p, b, hb⟩ := v
  obtain ⟨q, c, hc⟩ := w
  obtain rfl : p = q := qualifier
  obtain rfl : b = c := qualifyRoot
  rfl

end Apart

section Configurations

variable {c : Config} {v : Vocabulary}

/-- There is a vocabulary for a configuration just if its prefix is a name, or none. -/
theorem exists_ofConfig_iff
    (c : Config) :
    (∃ v, ofConfig c = .ok v) ↔
      c.qualifier = none ∨ c.qualifier = some "" ∨
        ∃ s, c.qualifier = some s ∧ spellsName s.toList = true := by
  obtain ⟨_ | s, b⟩ := c
  · exact iff_of_true ⟨_, rfl⟩ (Or.inl rfl)
  · by_cases empty : s = ""
    · subst empty
      exact iff_of_true ⟨_, rfl⟩ (Or.inr (Or.inl rfl))
    · by_cases spelled : spellsName s.toList = true
      · simp [ofConfig, Config.effectiveQualifier, empty, Name.ofString?, spelled]
      · simp [ofConfig, Config.effectiveQualifier, empty, Name.ofString?, spelled]

theorem effectiveQualifier_of_ofConfig
    (h : ofConfig c = .ok v) :
    c.effectiveQualifier = v.qualifier.map Name.text := by
  have config := congrArg Config.qualifier (config_of_ofConfig h)
  rw [Config.normalize_eq] at config
  exact config.symm

theorem text_qualify
    (h : ofConfig c = .ok v)
    (n : Name) :
    (v.qualify n).text = c.spell n := by
  rw [Config.spell, effectiveQualifier_of_ofConfig h, qualify]
  cases v.qualifier <;> rfl

theorem qualifyRoot_of_ofConfig
    (h : ofConfig c = .ok v) :
    v.qualifyRoot = (c.effectiveQualifier.isSome && c.qualifyRoot) := by
  have config := congrArg Config.qualifyRoot (config_of_ofConfig h)
  rwa [Config.normalize_eq] at config

theorem map_text_typeNames
    (h : ofConfig c = .ok v) :
    v.typeNames.map Name.text = c.typeTexts := by
  rw [typeNames, List.map_map]
  exact List.map_congr_left fun t _ => text_qualify h t.baseName

theorem text_directiveName
    (h : ofConfig c = .ok v)
    (d : FusionDirective) :
    (v.directiveName d).text =
      if d = .root ∧ c.qualifyRoot = false then d.baseName.text else c.spell d.baseName := by
  have spelled := text_qualify h d.baseName
  have root := qualifyRoot_of_ofConfig h
  rw [directiveName, apply_ite Name.text]
  cases hq : c.effectiveQualifier with
  | none =>
      -- Without a prefix it does not matter whether one was asked for.
      have plain : c.spell d.baseName = d.baseName.text := by simp [Config.spell, hq]
      rw [spelled, plain, ite_self, ite_self]
  | some s =>
      have asked : v.qualifyRoot = c.qualifyRoot := by simp [root, hq]
      rw [spelled, asked]

theorem map_text_directiveNames
    (h : ofConfig c = .ok v) :
    v.directiveNames.map Name.text = c.directiveTexts := by
  rw [directiveNames, List.map_map]
  exact List.map_congr_left fun d _ => text_directiveName h d

/-- The texts that a configuration leads to are spelled as names. -/
theorem spellsName_of_ofConfig
    (h : ofConfig c = .ok v) :
    ∀ s ∈ c.typeTexts ++ c.directiveTexts, spellsName s.toList = true := by
  intro s hs
  rw [← map_text_typeNames h, ← map_text_directiveNames h, ← List.map_append] at hs
  obtain ⟨n, -, rfl⟩ := List.mem_map.mp hs
  exact n.spelled

theorem qualifier_eq_of_config
    {w : Vocabulary}
    (h : v.qualifier = w.qualifier) :
    v.config.qualifier = w.config.qualifier :=
  congrArg (Option.map Name.text) h

/-- **The names of vocabularies are apart.**  A configuration has a vocabulary just if its
prefix is a name or there is none, and the vocabulary depends on the normal form only.  The
names are spelled as the configuration says, are names indeed, and are distinct, those of
types also from the scalars of the language.  Under different prefixes no type has the name
of a type, and the only common name of directives is that of a root directive without a
prefix.  Different normal forms lead to different names. -/
theorem names_apart
    (c d : Config) :
    ((∃ v, ofConfig c = .ok v) ↔
      c.qualifier = none ∨ c.qualifier = some "" ∨
        ∃ s, c.qualifier = some s ∧ spellsName s.toList = true) ∧
      (c.normalize = d.normalize → ofConfig c = ofConfig d) ∧
      ∀ v w, ofConfig c = .ok v → ofConfig d = .ok w →
        v.typeNames.map Name.text = c.typeTexts ∧
          v.directiveNames.map Name.text = c.directiveTexts ∧
          (∀ s ∈ c.typeTexts ++ c.directiveTexts, spellsName s.toList = true) ∧
          (v.typeNames.length = 7 ∧ v.typeNames.Nodup) ∧
          (v.directiveNames.length = 13 ∧ v.directiveNames.Nodup) ∧
          (∀ n ∈ [BuiltIn.boolean, BuiltIn.int, BuiltIn.string], n ∉ v.typeNames) ∧
          (c.normalize.qualifier ≠ d.normalize.qualifier →
            (∀ n ∈ v.typeNames, n ∉ w.typeNames) ∧
              ∀ n ∈ v.directiveNames, n ∈ w.directiveNames → n.text = "fusion") ∧
          (c.normalize ≠ d.normalize →
            v.typeNames ++ v.directiveNames ≠ w.typeNames ++ w.directiveNames) := by
  refine ⟨exists_ofConfig_iff c, fun same => ?_, fun v w hv hw => ?_⟩
  · rw [← ofConfig_normalize c, same, ofConfig_normalize d]
  · rw [← config_of_ofConfig hv, ← config_of_ofConfig hw]
    have scalars : ∀ n ∈ [BuiltIn.boolean, BuiltIn.int, BuiltIn.string], n ∉ v.typeNames :=
      fun n hn => not_mem_typeNames_of_scalar (mem_scalarNames_of_builtIn hn)
    refine ⟨map_text_typeNames hv, map_text_directiveNames hv, spellsName_of_ofConfig hv,
      ⟨rfl, v.nodup_typeNames⟩, ⟨rfl, v.nodup_map_directiveName (by decide)⟩, scalars, fun different => ?_, ?_⟩
    · have prefixes : v.qualifier ≠ w.qualifier := fun same =>
        different (qualifier_eq_of_config same)
      constructor
      · intro n hn hm
        obtain ⟨t, rfl⟩ := exists_of_mem_typeNames hn
        obtain ⟨u, hu⟩ := exists_of_mem_typeNames hm
        exact prefixes (qualifier_eq_of_typeName hu.symm)
      · intro n hn hm
        obtain ⟨d, rfl⟩ := exists_of_mem_directiveNames hn
        obtain ⟨e, he⟩ := exists_of_mem_directiveNames hm
        exact congrArg Name.text (eq_root_of_directiveName prefixes he.symm)
    · intro different names
      exact different (congrArg config (eq_of_names names))

/-- The names of `p_Type` are apart from those of `p`, though `p_Type` is itself a name that
`p` gives to a type. -/
theorem names_apart_of_nested :
    ofConfig ⟨some "p_Type", true⟩ = .ok ⟨some ⟨"p_Type", by decide⟩, true, by simp⟩ ∧
      ofConfig ⟨some "p", false⟩ = .ok ⟨some ⟨"p", by decide⟩, false, by simp⟩ ∧
      ∀ n ∈ typeNames ⟨some ⟨"p_Type", by decide⟩, true, by simp⟩,
        n ∉ typeNames ⟨some ⟨"p", by decide⟩, false, by simp⟩ := by
  have nested : ofConfig ⟨some "p_Type", true⟩ =
      .ok ⟨some ⟨"p_Type", by decide⟩, true, by simp⟩ := by rfl
  have single : ofConfig ⟨some "p", false⟩ = .ok ⟨some ⟨"p", by decide⟩, false, by simp⟩ := by rfl
  have apart := (names_apart ⟨some "p_Type", true⟩ ⟨some "p", false⟩).2.2 _ _ nested single
  exact ⟨nested, single, (apart.2.2.2.2.2.2.1 (by decide)).1⟩

end Configurations

end Vocabulary

end Supergraph
