import Mathlib.Data.List.Basic
import MemberSplit.Destination.Basic

/-!
# Destinations as a partition

Each placement is kept or is a repetition. The kept ones are distributed over the destinations: the
destinations have different paths, in the order in which the source first needs them, and each of
them holds just the definitions that are placed at its path.
-/

namespace MemberSplit

/-- Dropping the repetitions from a list leaves each member once. -/
theorem nodup_eraseDups {α : Type} [BEq α] [LawfulBEq α] (list : List α) :
    list.eraseDups.Nodup := by
  induction hlength : list.length using Nat.strongRecOn generalizing list with
  | ind length ih =>
      cases list with
      | nil => simp
      | cons first rest =>
          rw [List.eraseDups_cons, List.nodup_cons]
          refine ⟨by simp [List.mem_eraseDups], ih _ ?_ _ rfl⟩
          have hle := List.length_filter_le (fun other => !other == first) rest
          simp only [List.length_cons] at hlength
          omega

/-- The members of a list, collected for each of its keys in turn. -/
theorem flatMap_filter_perm {α κ : Type} [DecidableEq α] [DecidableEq κ] (key : α → κ)
    (list : List α) {keys : List κ} (hkeys : keys.Nodup) (hmem : ∀ a ∈ list, key a ∈ keys) :
    (keys.flatMap fun k => list.filter fun a => key a = k).Perm list := by
  induction keys generalizing list with
  | nil =>
      have hempty : list = [] := List.eq_nil_iff_forall_not_mem.mpr fun a ha => by
        simpa using hmem a ha
      simp [hempty]
  | cons k others ih =>
      obtain ⟨hk, hothers⟩ := List.nodup_cons.mp hkeys
      -- What has another key is found again among what is left without the key `k`.
      have hleft : ∀ k' ∈ others, (list.filter fun a => key a = k') =
          (list.filter fun a => !(key a = k)).filter fun a => key a = k' := by
        intro k' hk'
        rw [List.filter_filter]
        refine List.filter_congr fun a _ => ?_
        by_cases ha : key a = k'
        · subst ha
          have hne : key a ≠ k := fun h => hk (h ▸ hk')
          simp [hne]
        · simp [ha]
      have hrest := ih (list.filter fun a => !(key a = k)) hothers fun a ha => by
        obtain ⟨ha, hne⟩ := List.mem_filter.mp ha
        exact (List.mem_cons.mp (hmem a ha)).resolve_left (by simpa using hne)
      rw [List.flatMap_cons, List.flatMap_congr hleft]
      exact (hrest.append_left _).trans (List.filter_append_perm (fun a => key a = k) list)

/-- Each part of a joined text is part of it. -/
theorem Text.infix_joinWith (gap : Text) {part : Text} {parts : List Text} (hmem : part ∈ parts) :
    part <:+: Text.joinWith gap parts := by
  unfold Text.joinWith
  induction parts with
  | nil => simp at hmem
  | cons first rest ih =>
      cases rest with
      | nil => simp_all
      | cons next others =>
          rw [List.intercalate_cons_cons]
          rcases List.mem_cons.mp hmem with rfl | hlater
          · rw [List.append_assoc]
            exact (List.prefix_append _ _).isInfix
          · exact (ih hlater).trans (List.suffix_append _ _).isInfix

namespace Placement

theorem firsts_sublist (kept placements : List Placement) :
    (firsts kept placements).Sublist placements := by
  induction placements generalizing kept with
  | nil => exact List.Sublist.refl _
  | cons placement rest ih =>
      unfold firsts
      split
      next => exact (ih kept).cons _
      next => exact (ih _).cons_cons _

/-- Every placement is kept or is a repetition. -/
theorem firsts_append_repetitions_perm (kept placements : List Placement) :
    (firsts kept placements ++ (repetitions kept placements).map Repetition.placement).Perm
      placements := by
  induction placements generalizing kept with
  | nil => exact List.Perm.refl _
  | cons placement rest ih =>
      unfold firsts repetitions
      cases hfind : kept.find? placement.collides with
      | none =>
          have hany : kept.any placement.collides = false := by
            simpa [List.any_eq_false] using List.find?_eq_none.mp hfind
          simpa [hany] using ih (kept ++ [placement])
      | some first =>
          have hany : kept.any placement.collides = true :=
            List.any_eq_true.mpr ⟨first, List.mem_of_find?_eq_some hfind, List.find?_some hfind⟩
          simpa [hany] using List.perm_middle.trans ((ih kept).cons placement)

theorem firsts_eq_self {placements : List Placement} (h : repetitions [] placements = []) :
    firsts [] placements = placements := by
  have hperm := firsts_append_repetitions_perm [] placements
  rw [h] at hperm
  exact (firsts_sublist [] placements).eq_of_length (by simpa using hperm.length_eq)

end Placement

namespace Destination

/-- The file for a path at which something is placed. -/
theorem exists_ofPlacements? {preamble : Preamble} {placements : List Placement} {path : Path}
    (h : ∃ placement ∈ placements, placement.path = path) :
    ∃ destination, ofPlacements? preamble placements path = some destination ∧
      destination.path = path ∧
      destination.definitions =
        (placements.filter fun placement => placement.path = path).map Placement.definition := by
  obtain ⟨placement, hmem, hpath⟩ := h
  unfold ofPlacements?
  cases hfilter : placements.filter fun placement => placement.path = path with
  | nil =>
      have hnot := List.filter_eq_nil_iff.mp hfilter placement hmem
      simp [hpath] at hnot
  | cons first rest => exact ⟨_, rfl, rfl, rfl⟩

/-- A file holds each of its definitions as it is written, comments included. -/
theorem text_infix {destination : Destination} {definition : Definition}
    (hmem : definition ∈ destination.definitions) : definition.text <:+: destination.text := by
  have hjoined := Text.infix_joinWith "\n\n" (List.mem_map_of_mem (f := Definition.text) hmem)
  simp only [text, Text.concat, List.flatten_cons]
  exact List.infix_append_of_infix_right (List.infix_append_of_infix_left hjoined)

end Destination

namespace Grouping

variable {namer : FileNaming} {preamble : Preamble} {list : List Classified}

/-- The placements that are kept. -/
def keptPlacements (namer : FileNaming) (list : List Classified) : List Placement :=
  Placement.firsts [] (list.map (Placement.ofClassified namer))

theorem destinations_ofClassified :
    (ofClassified namer preamble list).destinations =
      ((keptPlacements namer list).map Placement.path).eraseDups.filterMap
        (Destination.ofPlacements? preamble (keptPlacements namer list)) := rfl

theorem exists_ofPlacements?_of_mem (preamble : Preamble) {path : Path}
    (hmem : path ∈ ((keptPlacements namer list).map Placement.path).eraseDups) :
    ∃ destination,
      Destination.ofPlacements? preamble (keptPlacements namer list) path = some destination ∧
      destination.path = path ∧
      destination.definitions = ((keptPlacements namer list).filter fun placement =>
        placement.path = path).map Placement.definition := by
  obtain ⟨placement, hplacement, hpath⟩ := List.mem_map.mp (List.mem_eraseDups.mp hmem)
  exact Destination.exists_ofPlacements? ⟨placement, hplacement, hpath⟩

/-- The destinations have the paths of the kept placements, each once and in the order in which
they first occur. -/
theorem paths_ofClassified :
    (ofClassified namer preamble list).destinations.map Destination.path =
      ((keptPlacements namer list).map Placement.path).eraseDups := by
  rw [destinations_ofClassified, List.map_filterMap]
  conv_rhs => rw [← List.filterMap_some (l := (_ : List Path).eraseDups)]
  refine List.filterMap_congr fun path hmem => ?_
  obtain ⟨destination, hsome, hpath, -⟩ := exists_ofPlacements?_of_mem preamble hmem
  rw [hsome, Option.map_some, hpath]

theorem nodup_paths_ofClassified (namer : FileNaming) (preamble : Preamble)
    (list : List Classified) :
    ((ofClassified namer preamble list).destinations.map Destination.path).Nodup := by
  rw [paths_ofClassified]
  exact nodup_eraseDups _

/-- A destination holds just the definitions that are placed at its path. -/
theorem definitions_of_mem {destination : Destination}
    (hmem : destination ∈ (ofClassified namer preamble list).destinations) :
    destination.definitions = ((keptPlacements namer list).filter fun placement =>
      placement.path = destination.path).map Placement.definition := by
  rw [destinations_ofClassified] at hmem
  obtain ⟨path, hpath, hsome⟩ := List.mem_filterMap.mp hmem
  obtain ⟨other, hother, rfl, hdefinitions⟩ := exists_ofPlacements?_of_mem preamble hpath
  obtain rfl : other = destination := Option.some.inj (hother.symm.trans hsome)
  exact hdefinitions

/-- Taken together, the destinations hold each kept definition once. -/
theorem flatMap_definitions_perm (namer : FileNaming) (preamble : Preamble)
    (list : List Classified) :
    ((ofClassified namer preamble list).destinations.flatMap Destination.definitions).Perm
      ((keptPlacements namer list).map Placement.definition) := by
  have hcongr : (ofClassified namer preamble list).destinations.flatMap Destination.definitions =
      (ofClassified namer preamble list).destinations.flatMap fun destination =>
        ((keptPlacements namer list).filter fun placement =>
          placement.path = destination.path).map Placement.definition :=
    List.flatMap_congr fun destination hmem => definitions_of_mem hmem
  have hperm := flatMap_filter_perm Placement.path (keptPlacements namer list)
    (nodup_paths_ofClassified namer preamble list)
    fun placement hmem => by
      rw [paths_ofClassified, List.mem_eraseDups]
      exact List.mem_map_of_mem hmem
  rw [hcongr]
  simpa [List.map_flatMap, List.flatMap_map] using hperm.map Placement.definition

/-- Without repetitions every placement is kept. -/
theorem keptPlacements_eq (h : (ofClassified namer preamble list).repetitions = []) :
    keptPlacements namer list = list.map (Placement.ofClassified namer) :=
  Placement.firsts_eq_self h

end Grouping

end MemberSplit
