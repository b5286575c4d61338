import MemberSplit.Proofs.Definition.Overload
import MemberSplit.Proofs.Destination.Position

/-!
# One file for each overload

Repetitions are looked for in each file on its own. That is enough: what the classification looks at
is part of the key of the overload, so two definitions of one source that are the same overload are
in the same group and belong to the same file.
-/

namespace MemberSplit

namespace Config

variable {first second : Definition}

/-- The classification looks at the owner, the name and the type of the first parameter alone. -/
theorem classify_congr (config : Config) (howner : first.owner = second.owner)
    (hname : first.name = second.name) (hbase : first.baseType? = second.baseType?) :
    config.classify first = config.classify second := by
  have hqualified : first.qualifiedName = second.qualifiedName := by
    rw [Definition.qualifiedName, Definition.qualifiedName, howner, hname]
  have hnames : ∀ mode entries, names mode entries first = names mode entries second := by
    intro mode entries
    have hentry : entryMatches mode first = entryMatches mode second := by
      funext entry
      simp only [entryMatches, hqualified, hname]
    rw [names, names, hentry]
  unfold classify
  rw [hnames, hnames, hname, hbase]

end Config

namespace Extractor

variable {extractor : Extractor} {source : Text}

/-- The definitions of a source that are the same overload are classified alike. -/
theorem classify_eq_of_overload_eq (config : Config) {first second : Definition}
    (hfirst : first ∈ (extractor.extract source).definitions)
    (hsecond : second ∈ (extractor.extract source).definitions)
    (h : first.overload = second.overload) : config.classify first = config.classify second := by
  obtain ⟨signature, hsignature, hread⟩ := exists_isReadFrom hfirst
  obtain ⟨signature', hsignature', hread'⟩ := exists_isReadFrom hsecond
  have howner : first.owner = second.owner := hread.owner.trans hread'.owner.symm
  have hspelled := Definition.isSpelled_of_isReadFrom hsignature hread
  have hspelled' := Definition.isSpelled_of_isReadFrom hsignature' hread'
  apply config.classify_congr howner (hspelled.name_eq_of_overload_eq hspelled' howner h)
  apply Definition.baseType?_eq_of_joinWith_eq
  exact hspelled.typesText_eq_of_overload_eq hspelled' howner h

end Extractor

namespace Grouping

/-- Files that are grouped from definitions of which the same overloads are classified alike hold
each overload once, taken together. -/
theorem nodup_overloads {config : Config} {definitions : List Definition}
    (hclassify : ∀ first ∈ definitions, ∀ second ∈ definitions,
      first.overload = second.overload → config.classify first = config.classify second)
    (namer : FileNaming) (preamble : Preamble) :
    (((ofClassified namer preamble (definitions.map config.classified)).destinations.flatMap
      Destination.definitions).map Definition.overload).Nodup := by
  have hkept := (flatMap_definitions_perm namer preamble
    (definitions.map config.classified)).map Definition.overload
  rw [hkept.nodup_iff, List.map_map, List.Nodup, List.pairwise_map]
  have hapart := (Placement.pairwise_firsts []
    (placements namer (definitions.map config.classified))).2
  refine List.Pairwise.imp_of_mem ?_ hapart
  intro earlier later hearlier hlater hcollides hsame
  have hplaced := (Placement.firsts_sublist []
    (placements namer (definitions.map config.classified))).subset
  have hposition : ∀ {placement : Placement},
      placement ∈ placements namer (definitions.map config.classified) →
      ∃ definition ∈ definitions,
        placement = Placement.ofClassified namer (config.classified definition) := by
    intro placement hmem
    obtain ⟨classified, hclassified, rfl⟩ := List.mem_map.mp hmem
    obtain ⟨definition, hdefinition, rfl⟩ := List.mem_map.mp hclassified
    exact ⟨definition, hdefinition, rfl⟩
  obtain ⟨first, hfirst, rfl⟩ := hposition (hplaced hearlier)
  obtain ⟨second, hsecond, rfl⟩ := hposition (hplaced hlater)
  have hoverload : first.overload = second.overload := hsame
  have hgroup : (config.classified second).group = (config.classified first).group :=
    congrArg Prod.fst (hclassify second hsecond first hfirst hoverload.symm)
  have hmeet : (Placement.ofClassified namer (config.classified second)).collides
      (Placement.ofClassified namer (config.classified first)) = true := by
    apply Placement.collides_iff.mpr
    exact ⟨congrArg namer.path hgroup, hoverload.symm⟩
  rw [hmeet] at hcollides
  cases hcollides

/-- No overload of a source is in two files, or twice in one; for the definitions of a source that
are the same overload are classified alike. -/
theorem classify_eq_and_nodup_overloads (extractor : Extractor) (source : Text) (config : Config)
    (namer : FileNaming) (preamble : Preamble) :
    (∀ first ∈ (extractor.extract source).definitions,
      ∀ second ∈ (extractor.extract source).definitions,
        first.overload = second.overload → config.classify first = config.classify second) ∧
      (((ofClassified namer preamble
        ((extractor.extract source).definitions.map config.classified)).destinations.flatMap
          Destination.definitions).map Definition.overload).Nodup := by
  have hclassify : ∀ first ∈ (extractor.extract source).definitions,
      ∀ second ∈ (extractor.extract source).definitions,
        first.overload = second.overload →
          config.classify first = config.classify second := by
    intro first hfirst second hsecond h
    exact Extractor.classify_eq_of_overload_eq config hfirst hsecond h
  exact ⟨hclassify, nodup_overloads hclassify namer preamble⟩

end Grouping

end MemberSplit
