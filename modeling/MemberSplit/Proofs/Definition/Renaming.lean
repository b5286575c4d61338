import MemberSplit.Proofs.Definition.Collision
import MemberSplit.Proofs.Destination.Overload

/-!
# The same overload with other parameter names

A definition keeps its overload when its parameters get other names and default values, and then
the later of two such definitions is found to be a repetition. The exception is a parameter whose
type is a lone `unsigned` or the like: its name is part of the overload.
-/

namespace MemberSplit

namespace Parameter

variable {parameter other : Parameter} {parameters others : List Parameter}

/-- Both parameters have a name, and their types are written alike but for spaces in front of
reference and pointer marks. -/
structure IsRenamed (parameter other : Parameter) : Prop where
  named : parameter.name.isSome = true
  named' : other.name.isSome = true
  type : ParameterType.tight parameter.type = ParameterType.tight other.type

instance (parameter other : Parameter) : Decidable (parameter.IsRenamed other) :=
  decidable_of_iff
    (parameter.name.isSome = true ∧ other.name.isSome = true ∧
      ParameterType.tight parameter.type = ParameterType.tight other.type)
    ⟨fun ⟨hnamed, hnamed', htype⟩ => ⟨hnamed, hnamed', htype⟩,
      fun ⟨hnamed, hnamed', htype⟩ => ⟨hnamed, hnamed', htype⟩⟩

/-- The names of the parameters are the same if the type is a lone word for numbers. -/
def AgreesOnNumber (parameter other : Parameter) : Prop :=
  parameter.type ∈ numberWords → parameter.name = other.name

instance (parameter other : Parameter) : Decidable (parameter.AgreesOnNumber other) :=
  inferInstanceAs (Decidable (_ → _))

theorem mem_openWords_iff (h : parameter.IsProper) :
    parameter.type ∈ ParameterType.openWords ↔ parameter.type ∈ numberWords := by
  have hopen : ∀ word ∈ numberWords, word ∈ ParameterType.openWords := by decide
  exact ⟨h.whole, hopen parameter.type⟩

theorem kept_of_name {name : Text} (h : parameter.IsProper) (hname : parameter.name = some name) :
    parameter.kept =
      if parameter.type ∈ numberWords then parameter.type ++ ' ' :: name else parameter.type := by
  simp only [kept, hname, List.contains_iff_mem, mem_openWords_iff h]

theorem IsRenamed.symm (h : parameter.IsRenamed other) : other.IsRenamed parameter :=
  ⟨h.named', h.named, h.type.symm⟩

theorem tight_of_mem_numberWords {word : Text} (h : word ∈ numberWords) :
    ParameterType.tight word = word := by
  have hall : ∀ word ∈ numberWords, ParameterType.tight word = word := by decide
  exact hall word h

/-- No other type is written like a lone word for numbers. -/
theorem IsRenamed.type_eq (h : parameter.IsRenamed other) (hnumber : parameter.type ∈ numberWords) :
    other.type = parameter.type := by
  have htight : ParameterType.tight other.type = parameter.type :=
    h.type.symm.trans (tight_of_mem_numberWords hnumber)
  have hplain : ∀ c ∈ ['&', '*'], c ∉ other.type := by
    intro c hc hmem
    have hnone : ∀ word ∈ numberWords, c ∉ word := by
      simp only [List.mem_cons, List.not_mem_nil, or_false] at hc
      rcases hc with rfl | rfl <;> decide
    apply hnone parameter.type hnumber
    rw [← htight]
    exact (ParameterType.mem_tight_iff hc).mpr hmem
  rwa [ParameterType.tight_eq_self (hplain '&' (by simp)) (hplain '*' (by simp))] at htight

/-- The same is kept of a renamed parameter, unless its type is a lone word for numbers. -/
theorem tight_kept_eq_iff (hproper : parameter.IsProper) (hproper' : other.IsProper)
    (h : parameter.IsRenamed other) :
    ParameterType.tight parameter.kept = ParameterType.tight other.kept ↔
      parameter.AgreesOnNumber other := by
  obtain ⟨name, hname⟩ := Option.isSome_iff_exists.mp h.named
  obtain ⟨name', hname'⟩ := Option.isSome_iff_exists.mp h.named'
  rw [kept_of_name hproper hname, kept_of_name hproper' hname', AgreesOnNumber, hname, hname']
  by_cases hnumber : parameter.type ∈ numberWords
  · have hidentifier := (hproper.name name hname).1
    have hidentifier' := (hproper'.name name' hname').1
    rw [h.type_eq hnumber, if_pos hnumber, if_pos hnumber, tight_of_number hnumber hidentifier,
      tight_of_number hnumber hidentifier']
    simp [hnumber]
  · have hnumber' : other.type ∉ numberWords := fun hmem =>
      hnumber (h.symm.type_eq hmem ▸ hmem)
    rw [if_neg hnumber, if_neg hnumber']
    simp [h.type, hnumber]

theorem map_tight_kept_eq_iff (hproper : ∀ parameter ∈ parameters, parameter.IsProper)
    (hproper' : ∀ parameter ∈ others, parameter.IsProper)
    (h : List.Forall₂ IsRenamed parameters others) :
    (parameters.map fun parameter => ParameterType.tight parameter.kept) =
        (others.map fun parameter => ParameterType.tight parameter.kept) ↔
      List.Forall₂ AgreesOnNumber parameters others := by
  induction h with
  | nil => simp
  | cons hfirst _ ih =>
      obtain ⟨hhead, htail⟩ := List.forall_mem_cons.mp hproper
      obtain ⟨hhead', htail'⟩ := List.forall_mem_cons.mp hproper'
      rw [List.map_cons, List.map_cons, List.cons.injEq, tight_kept_eq_iff hhead hhead' hfirst,
        ih htail htail', List.forall₂_cons]

end Parameter

namespace Placement

variable {first second : Placement} {placements : List Placement}

/-- What collides with a kept placement is a repetition. -/
theorem exists_repetition_of_any {kept : List Placement} (hkept : kept.any second.collides = true)
    (hmem : second ∈ placements) :
    ∃ repetition ∈ repetitions kept placements, repetition.placement = second := by
  induction placements generalizing kept with
  | nil => cases hmem
  | cons placement rest ih =>
      unfold repetitions
      split
      next first hfind =>
        rcases List.mem_cons.mp hmem with rfl | hlater
        · exact ⟨_, List.mem_cons_self, rfl⟩
        · obtain ⟨repetition, hrepetition, hsecond⟩ := ih hkept hlater
          exact ⟨repetition, List.mem_cons_of_mem _ hrepetition, hsecond⟩
      next hfind =>
        rcases List.mem_cons.mp hmem with rfl | hlater
        · rw [List.find?_eq_none] at hfind
          obtain ⟨other, hother, hcollides⟩ := List.any_eq_true.mp hkept
          exact absurd hcollides (hfind other hother)
        · exact ih (by simp [hkept]) hlater

/-- The later of two placements that collide is a repetition, whatever else is placed. -/
theorem exists_repetition_of_sublist (hcollides : second.collides first = true)
    (h : [first, second].Sublist placements) (kept : List Placement) :
    ∃ repetition ∈ repetitions kept placements, repetition.placement = second := by
  induction placements generalizing kept with
  | nil => cases h
  | cons placement rest ih =>
      cases h with
      | cons _ hrest =>
          unfold repetitions
          split
          next =>
            obtain ⟨repetition, hrepetition, hsecond⟩ := ih hrest kept
            exact ⟨repetition, List.mem_cons_of_mem _ hrepetition, hsecond⟩
          next => exact ih hrest _
      | cons_cons _ hrest =>
          have hmem : second ∈ rest := List.singleton_sublist.mp hrest
          unfold repetitions
          split
          next other hfind =>
            -- The first one is a repetition itself, of a placement that the second collides with.
            have hany : kept.any second.collides = true := List.any_eq_true.mpr
              ⟨other, List.mem_of_find?_eq_some hfind,
                collides_trans hcollides (List.find?_some hfind)⟩
            obtain ⟨repetition, hrepetition, hsecond⟩ := exists_repetition_of_any hany hmem
            exact ⟨repetition, List.mem_cons_of_mem _ hrepetition, hsecond⟩
          next => exact exists_repetition_of_any (by simp [hcollides]) hmem

end Placement

namespace Definition

open Parameter (Declares IsRenamed AgreesOnNumber)

variable {first second : Definition} {parameters others : List Parameter}

/-- Two definitions of one overload are placed in one file, where they collide. -/
theorem collides_of_overload_eq (howner : first.owner = second.owner)
    (hname : first.name = second.name) (hconst : first.isConst = second.isConst)
    (h : first.overload = second.overload) (namer : FileNaming) (config : Config) :
    (Placement.ofClassified namer (config.classified second)).collides
      (Placement.ofClassified namer (config.classified first)) = true := by
  have hbase := baseType?_eq_of_joinWith_eq
    ((overload_eq_iff_typesText howner hname hconst).mp h)
  have hgroup : (config.classified second).group = (config.classified first).group :=
    congrArg Prod.fst (config.classify_congr howner hname hbase).symm
  exact Placement.collides_iff.mpr ⟨congrArg namer.path hgroup, h.symm⟩

/-- With other parameter names and default values a definition has the same overload if and only if
the names behind a lone word for numbers stay. If they do, the later of two such definitions is
always found to be a repetition. -/
theorem overload_eq_iff_of_renamed (hfirst : Declares parameters first.paramList)
    (hsecond : Declares others second.paramList) (howner : first.owner = second.owner)
    (hname : first.name = second.name) (hconst : first.isConst = second.isConst)
    (hrenamed : List.Forall₂ IsRenamed parameters others) :
    (first.overload = second.overload ↔ List.Forall₂ AgreesOnNumber parameters others) ∧
    (List.Forall₂ AgreesOnNumber parameters others →
      ∀ (namer : FileNaming) (preamble : Preamble) (config : Config)
        (definitions : List Definition), [first, second].Sublist definitions →
        ∃ repetition ∈ (Grouping.ofClassified namer preamble
            (definitions.map config.classified)).repetitions,
          repetition.placement.definition = second) := by
  have hiff : first.overload = second.overload ↔
      List.Forall₂ AgreesOnNumber parameters others := by
    rw [overload_eq_iff_typesText howner hname hconst,
      typesText_eq_iff (nil_not_mem_parameterTypes hfirst) (nil_not_mem_parameterTypes hsecond),
      parameterTypes_of_declares hfirst, parameterTypes_of_declares hsecond]
    exact Parameter.map_tight_kept_eq_iff hfirst.proper hsecond.proper hrenamed
  refine ⟨hiff, fun hagree namer preamble config definitions hsublist => ?_⟩
  have hcollides := collides_of_overload_eq howner hname hconst (hiff.mpr hagree) namer config
  have hplaced : [Placement.ofClassified namer (config.classified first),
      Placement.ofClassified namer (config.classified second)].Sublist
        ((definitions.map config.classified).map (Placement.ofClassified namer)) :=
    (hsublist.map config.classified).map (Placement.ofClassified namer)
  obtain ⟨repetition, hmem, hplacement⟩ :=
    Placement.exists_repetition_of_sublist hcollides hplaced []
  exact ⟨repetition, hmem, by rw [hplacement]; rfl⟩

/-- The name behind a lone `unsigned` is part of the overload; with other types neither names nor
default values are. -/
theorem overload_eq_iff_of_renamed_numbers :
    (ofParams "unsigned a").overload ≠ (ofParams "unsigned b").overload ∧
      (ofParams "const Text &a, long  b = 3").overload =
        (ofParams "const Text& other, long b").overload ∧
      ∀ (namer : FileNaming) (preamble : Preamble) (config : Config),
        ∃ repetition ∈ (Grouping.ofClassified namer preamble
            ([ofParams "const Text &a, long  b = 3", ofParams "const Text& other, long b"].map
              config.classified)).repetitions,
          repetition.placement.definition = ofParams "const Text& other, long b" := by
  have hfirst : Declares [{ type := "unsigned", name := "a" }] (ofParams "unsigned a").paramList :=
    ⟨by decide, by simp, fun _ => ⟨by decide, ["unsigned a"],
      .cons ⟨"unsigned a", by decide, by decide⟩ .nil, rfl⟩⟩
  have hsecond : Declares [{ type := "unsigned", name := "b" }] (ofParams "unsigned b").paramList :=
    ⟨by decide, by simp, fun _ => ⟨by decide, ["unsigned b"],
      .cons ⟨"unsigned b", by decide, by decide⟩ .nil, rfl⟩⟩
  have hvalue : Declares
      [{ type := "const Text &", name := "a" }, { type := "long", name := "b", value := " 3" }]
      (ofParams "const Text &a, long  b = 3").paramList :=
    ⟨by decide, by simp, fun _ => ⟨by decide, ["const Text &a", " long  b = 3"],
      .cons ⟨"const Text &a", by decide, by decide⟩
        (.cons ⟨" long  b ", by decide, by decide⟩ .nil), rfl⟩⟩
  have hplain : Declares
      [{ type := "const Text&", name := "other" }, { type := "long", name := "b" }]
      (ofParams "const Text& other, long b").paramList :=
    ⟨by decide, by simp, fun _ => ⟨by decide, ["const Text& other", " long b"],
      .cons ⟨"const Text& other", by decide, by decide⟩
        (.cons ⟨" long b", by decide, by decide⟩ .nil), rfl⟩⟩
  obtain ⟨hnumber, -⟩ := overload_eq_iff_of_renamed hfirst hsecond (by decide) (by decide)
    (by decide) (by decide)
  obtain ⟨hsame, hfound⟩ := overload_eq_iff_of_renamed hvalue hplain (by decide) (by decide)
    (by decide) (by decide)
  refine ⟨fun h => absurd (hnumber.mp h) (by decide), hsame.mpr (by decide), ?_⟩
  intro namer preamble config
  exact hfound (by decide) namer preamble config _ (List.Sublist.refl _)

end Definition

end MemberSplit
