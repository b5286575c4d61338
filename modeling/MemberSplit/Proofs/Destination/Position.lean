import Mathlib.Algebra.GroupWithZero.Nat
import Mathlib.Data.List.Nodup
import MemberSplit.Proofs.Destination.Partition

/-!
# Grouping told by positions

Whether a placement is kept depends on those in front of it alone: it is a repetition exactly if one
of them collides with it. So the files and the repetitions can be read off the list of placements
without going through it in order, and every placement turns up in one of the two, once.
-/

namespace MemberSplit

namespace Placement

variable {kept seen rest placements : List Placement} {placement first other : Placement}

/-- The first of the placements in front of a position that collides with the one there. -/
def earlier? (placements : List Placement) (numbered : Placement × Nat) : Option Placement :=
  (placements.take numbered.2).find? numbered.1.collides

theorem collides_iff : placement.collides other = true ↔
    placement.path = other.path ∧ placement.key = other.key := by
  simp [collides]

theorem collides_trans (hfirst : placement.collides first = true)
    (hother : first.collides other = true) : placement.collides other = true := by
  rw [collides_iff] at hfirst hother ⊢
  exact ⟨hfirst.1.trans hother.1, hfirst.2.trans hother.2⟩

/-- A placement that collides with a kept one can be left out when collisions are looked for. -/
theorem find?_concat_of_collides
    (hkept : ∀ other, kept.find? (collides other) = seen.find? (collides other))
    (hfirst : kept.find? placement.collides = some first) (other : Placement) :
    kept.find? other.collides = (seen ++ [placement]).find? other.collides := by
  rw [List.find?_append, ← hkept other]
  by_cases hother : other.collides placement = true
  · have hcollides := collides_trans hother (List.find?_some hfirst)
    have hsome : (kept.find? other.collides).isSome :=
      List.find?_isSome.mpr ⟨first, List.mem_of_find?_eq_some hfirst, hcollides⟩
    obtain ⟨found, hfound⟩ := Option.isSome_iff_exists.mp hsome
    simp [hfound]
  · simp [hother]

theorem find?_concat_of_kept
    (hkept : ∀ other, kept.find? (collides other) = seen.find? (collides other))
    (other : Placement) :
    (kept ++ [placement]).find? other.collides = (seen ++ [placement]).find? other.collides := by
  rw [List.find?_append, List.find?_append, hkept other]

/-- The kept placements and the repetitions behind some placements that have been gone through. -/
theorem firsts_and_repetitions_eq
    (hkept : ∀ other, kept.find? (collides other) = seen.find? (collides other)) :
    firsts kept rest = ((rest.zipIdx seen.length).filter fun numbered =>
        (earlier? (seen ++ rest) numbered).isNone).map Prod.fst ∧
      repetitions kept rest = (rest.zipIdx seen.length).filterMap fun numbered =>
        (earlier? (seen ++ rest) numbered).map (Repetition.mk numbered.1) := by
  induction rest generalizing kept seen with
  | nil => exact ⟨rfl, rfl⟩
  | cons placement rest ih =>
      have hearlier : earlier? (seen ++ placement :: rest) (placement, seen.length) =
          kept.find? placement.collides := by
        rw [earlier?, List.take_left, hkept]
      have hlength : (seen ++ [placement]).length = seen.length + 1 := by simp
      have happend : seen ++ [placement] ++ rest = seen ++ placement :: rest := by simp
      rw [firsts, repetitions, List.zipIdx_cons, List.filter_cons, List.filterMap_cons, hearlier]
      cases hfind : kept.find? placement.collides with
      | none =>
          have hany : kept.any placement.collides = false := by
            simpa [List.any_eq_false] using List.find?_eq_none.mp hfind
          obtain ⟨hfirsts, hrepetitions⟩ := ih (find?_concat_of_kept hkept)
          rw [hlength, happend] at hfirsts hrepetitions
          simp [hany, hfirsts, hrepetitions]
      | some first =>
          have hany : kept.any placement.collides = true :=
            List.any_eq_true.mpr ⟨first, List.mem_of_find?_eq_some hfind, List.find?_some hfind⟩
          obtain ⟨hfirsts, hrepetitions⟩ := ih (find?_concat_of_collides hkept hfind)
          rw [hlength, happend] at hfirsts hrepetitions
          simp [hany, hfirsts, hrepetitions]

theorem firsts_eq (placements : List Placement) :
    firsts [] placements = (placements.zipIdx.filter fun numbered =>
      (earlier? placements numbered).isNone).map Prod.fst :=
  (firsts_and_repetitions_eq (fun _ => rfl)).1

theorem repetitions_eq (placements : List Placement) :
    repetitions [] placements = placements.zipIdx.filterMap fun numbered =>
      (earlier? placements numbered).map (Repetition.mk numbered.1) :=
  (firsts_and_repetitions_eq (fun _ => rfl)).2

/-- What a repetition collides with stands in front of it and is kept. -/
theorem exists_position_of_earlier? {numbered : Placement × Nat}
    (h : earlier? placements numbered = some first) :
    ∃ position < numbered.2, (first, position) ∈ placements.zipIdx ∧
      earlier? placements (first, position) = none := by
  obtain ⟨hcollides, before, after, htake, hbefore⟩ := List.find?_eq_some_iff_append.mp h
  have hplacements : placements = before ++ first :: (after ++ placements.drop numbered.2) := by
    have := List.take_append_drop numbered.2 placements
    rw [htake] at this
    simpa using this.symm
  have hlength : before.length < numbered.2 := by
    have := congrArg List.length htake
    simp only [List.length_take, List.length_append, List.length_cons] at this
    omega
  refine ⟨before.length, hlength, ?_, ?_⟩
  · rw [List.mk_mem_zipIdx_iff_getElem?, hplacements]
    simp
  · have hfront : placements.take before.length = before := by
      rw [hplacements, List.take_left]
    rw [earlier?, hfront, List.find?_eq_none]
    intro other hother hagain
    -- What collides with the first one would have been found before it.
    have hnone := hbefore other hother
    rw [collides_trans hcollides hagain] at hnone
    cases hnone

/-- No two kept placements collide, and none collides with what was kept before. -/
theorem pairwise_firsts (kept placements : List Placement) :
    (∀ placement ∈ firsts kept placements, ∀ other ∈ kept, placement.collides other = false) ∧
      (firsts kept placements).Pairwise fun earlier later => later.collides earlier = false := by
  induction placements generalizing kept with
  | nil => simp [firsts]
  | cons placement rest ih =>
      unfold firsts
      split
      next => exact ih kept
      next hnone =>
        obtain ⟨hothers, hpairwise⟩ := ih (kept ++ [placement])
        have hself : ∀ other ∈ kept, placement.collides other = false := by
          simpa using hnone
        refine ⟨?_, List.pairwise_cons.mpr ⟨?_, hpairwise⟩⟩
        · intro later hlater other hother
          rcases List.mem_cons.mp hlater with rfl | hrest
          · exact hself other hother
          · exact hothers later hrest other (List.mem_append_left _ hother)
        · intro later hlater
          exact hothers later hlater placement (List.mem_append_right _ List.mem_cons_self)

/-- Leaving out the repetitions takes no path away, nor does it change which path comes first. -/
theorem eraseDups_paths_firsts (kept placements : List Placement) :
    ((kept ++ firsts kept placements).map Placement.path).eraseDups =
      ((kept ++ placements).map Placement.path).eraseDups := by
  induction placements generalizing kept with
  | nil => rfl
  | cons placement rest ih =>
      unfold firsts
      split
      next hany =>
        obtain ⟨first, hfirst, hcollides⟩ := List.any_eq_true.mp hany
        have hmem : placement.path ∈ kept.map Placement.path :=
          List.mem_map.mpr ⟨first, hfirst, (collides_iff.mp hcollides).1.symm⟩
        rw [ih kept, List.map_append, List.map_append, List.map_cons, List.eraseDups_append,
          List.eraseDups_append, List.cons_removeAll, if_neg (by simpa using hmem)]
      next =>
        have hrest := ih (kept ++ [placement])
        simpa using hrest

/-- Of the placements that collide with a given one, one is kept. -/
theorem exists_mem_firsts (kept : List Placement) (hmem : placement ∈ placements) :
    ∃ first ∈ kept ++ firsts kept placements, placement.collides first = true := by
  induction placements generalizing kept with
  | nil => cases hmem
  | cons next rest ih =>
      unfold firsts
      rcases List.mem_cons.mp hmem with rfl | hrest
      · split
        next hany =>
          obtain ⟨first, hfirst, hcollides⟩ := List.any_eq_true.mp hany
          exact ⟨first, List.mem_append_left _ hfirst, hcollides⟩
        next => exact ⟨placement, by simp, collides_iff.mpr ⟨rfl, rfl⟩⟩
      · split
        next => exact ih kept hrest
        next => simpa using ih (kept ++ [next]) hrest

end Placement

namespace Grouping

/-- Definitions with the paths of their files, in the order of the source. -/
def placements (namer : FileNaming) (list : List Classified) : List Placement :=
  list.map (Placement.ofClassified namer)

/-- The grouping distributes the definitions over files, and reports those it leaves out. -/
structure IsOrderedPartition (grouping : Grouping) (namer : FileNaming)
    (list : List Classified) : Prop where
  /-- The files come in the order in which their paths are first needed. -/
  paths : grouping.destinations.map Destination.path =
    (list.map fun classified => namer.path classified.group).eraseDups
  distinct : (grouping.destinations.map Destination.path).Nodup
  home : ∀ classified ∈ list, ∃! destination, destination ∈ grouping.destinations ∧
    destination.path = namer.path classified.group
  filled : ∀ destination ∈ grouping.destinations, destination.definitions ≠ []
  /-- A file holds, in the order of the source, what is placed at its path and collides with
  nothing in front. -/
  held : ∀ destination ∈ grouping.destinations, destination.definitions =
    ((placements namer list).zipIdx.filter fun numbered =>
      numbered.1.path = destination.path &&
        (Placement.earlier? (placements namer list) numbered).isNone).map
          fun numbered => numbered.1.definition
  /-- What collides with something in front is reported, once and in the order of the source. -/
  reported : grouping.repetitions.map Repetition.diagnostic =
    (placements namer list).zipIdx.filterMap fun numbered =>
      (Placement.earlier? (placements namer list) numbered).map fun first =>
        .duplicate numbered.1.definition.qualifiedName numbered.1.definition.line
          first.definition.line numbered.1.path
  /-- The line that a report refers to is that of a definition which the file holds. -/
  referred : ∀ numbered ∈ (placements namer list).zipIdx, ∀ first,
    Placement.earlier? (placements namer list) numbered = some first →
      (∃ position < numbered.2, (first, position) ∈ (placements namer list).zipIdx ∧
        Placement.earlier? (placements namer list) (first, position) = none) ∧
      ∃ destination ∈ grouping.destinations, destination.path = numbered.1.path ∧
        first.definition ∈ destination.definitions ∧
        first.definition.overload = numbered.1.definition.overload
  keys : ∀ destination ∈ grouping.destinations,
    (destination.definitions.map Definition.overload).Nodup
  counted : list.length =
    (grouping.destinations.map fun destination => destination.definitions.length).sum +
      grouping.repetitions.length

variable {namer : FileNaming} {preamble : Preamble} {list : List Classified}

theorem key_eq_overload {placement : Placement} (hmem : placement ∈ placements namer list) :
    placement.key = placement.definition.overload := by
  obtain ⟨classified, -, rfl⟩ := List.mem_map.mp hmem
  rfl

theorem map_path_placements (namer : FileNaming) (list : List Classified) :
    (placements namer list).map Placement.path =
      list.map fun classified => namer.path classified.group := by
  rw [placements, List.map_map]
  rfl

theorem paths_eq_eraseDups (namer : FileNaming) (preamble : Preamble) (list : List Classified) :
    (ofClassified namer preamble list).destinations.map Destination.path =
      ((placements namer list).map Placement.path).eraseDups := by
  rw [paths_ofClassified]
  exact Placement.eraseDups_paths_firsts [] (placements namer list)

theorem existsUnique_destination (preamble : Preamble) {placement : Placement}
    (hmem : placement ∈ placements namer list) :
    ∃! destination, destination ∈ (ofClassified namer preamble list).destinations ∧
      destination.path = placement.path := by
  have hpath : placement.path ∈
      (ofClassified namer preamble list).destinations.map Destination.path := by
    rw [paths_eq_eraseDups, List.mem_eraseDups]
    exact List.mem_map_of_mem hmem
  obtain ⟨destination, hdestination, heq⟩ := List.mem_map.mp hpath
  refine ⟨destination, ⟨hdestination, heq⟩, ?_⟩
  rintro other ⟨hother, heq'⟩
  exact List.inj_on_of_nodup_map (nodup_paths_ofClassified namer preamble list) hother
    hdestination (heq'.trans heq.symm)

theorem definitions_ne_nil {destination : Destination}
    (hmem : destination ∈ (ofClassified namer preamble list).destinations) :
    destination.definitions ≠ [] := by
  have hpath := List.mem_map_of_mem (f := Destination.path) hmem
  rw [paths_ofClassified, List.mem_eraseDups] at hpath
  obtain ⟨placement, hkept, heq⟩ := List.mem_map.mp hpath
  rw [definitions_of_mem hmem]
  refine List.ne_nil_of_mem (List.mem_map_of_mem (List.mem_filter.mpr ⟨hkept, ?_⟩))
  exact decide_eq_true heq

/-- A file holds what is placed at its path and collides with nothing in front of it. -/
theorem definitions_eq_of_mem {destination : Destination}
    (hmem : destination ∈ (ofClassified namer preamble list).destinations) :
    destination.definitions =
      ((placements namer list).zipIdx.filter fun numbered =>
        numbered.1.path = destination.path &&
          (Placement.earlier? (placements namer list) numbered).isNone).map
            fun numbered => numbered.1.definition := by
  rw [definitions_of_mem hmem, keptPlacements, Placement.firsts_eq, List.filter_map,
    List.filter_filter, List.map_map]
  rfl

theorem nodup_overloads_of_mem {destination : Destination}
    (hmem : destination ∈ (ofClassified namer preamble list).destinations) :
    (destination.definitions.map Definition.overload).Nodup := by
  have hapart := (Placement.pairwise_firsts [] (placements namer list)).2
  rw [definitions_of_mem hmem, List.map_map, List.Nodup, List.pairwise_map, List.pairwise_filter]
  refine List.Pairwise.imp_of_mem ?_ hapart
  intro earlier later hearlier hlater hcollides hpath hpath' hsame
  have hpaths : later.path = earlier.path :=
    (of_decide_eq_true hpath').trans (of_decide_eq_true hpath).symm
  have hplaced := (Placement.firsts_sublist [] (placements namer list)).subset
  have hkeys : later.key = earlier.key := by
    rw [key_eq_overload (hplaced hlater), key_eq_overload (hplaced hearlier)]
    exact hsame.symm
  rw [Placement.collides_iff.mpr ⟨hpaths, hkeys⟩] at hcollides
  cases hcollides

theorem length_eq (namer : FileNaming) (preamble : Preamble) (list : List Classified) :
    list.length =
      ((ofClassified namer preamble list).destinations.map fun destination =>
        destination.definitions.length).sum +
          (ofClassified namer preamble list).repetitions.length := by
  have hperm := (Placement.firsts_append_repetitions_perm [] (placements namer list)).length_eq
  have hheld := (flatMap_definitions_perm namer preamble list).length_eq
  rw [List.length_append, List.length_map, placements, List.length_map] at hperm
  rw [List.length_flatMap, List.length_map] at hheld
  rw [hheld, ← hperm]
  rfl

/-- Grouping is a partition that keeps the order of the source. -/
theorem isOrderedPartition_ofClassified (namer : FileNaming) (preamble : Preamble)
    (list : List Classified) :
    (ofClassified namer preamble list).IsOrderedPartition namer list := by
  refine
    { paths := by rw [paths_eq_eraseDups, map_path_placements]
      distinct := nodup_paths_ofClassified namer preamble list
      home := fun _ hmem => existsUnique_destination preamble (List.mem_map_of_mem hmem)
      filled := fun _ hmem => definitions_ne_nil hmem
      held := fun _ hmem => definitions_eq_of_mem hmem
      reported := ?_
      referred := ?_
      keys := fun _ hmem => nodup_overloads_of_mem hmem
      counted := length_eq namer preamble list }
  · have hrepetitions : (ofClassified namer preamble list).repetitions = _ :=
      Placement.repetitions_eq (placements namer list)
    rw [hrepetitions, List.map_filterMap]
    refine List.filterMap_congr fun numbered _ => ?_
    rw [Option.map_map]
    rfl
  · intro numbered hnumbered first hfirst
    obtain ⟨position, hlt, hposition, hnone⟩ := Placement.exists_position_of_earlier? hfirst
    refine ⟨⟨position, hlt, hposition, hnone⟩, ?_⟩
    have hplaced := List.fst_mem_of_mem_zipIdx hnumbered
    have hplaced' := List.fst_mem_of_mem_zipIdx hposition
    obtain ⟨hpaths, hkeys⟩ := Placement.collides_iff.mp (List.find?_some hfirst)
    obtain ⟨destination, ⟨hdestination, hhome⟩, -⟩ := existsUnique_destination preamble hplaced'
    refine ⟨destination, hdestination, hhome.trans hpaths.symm, ?_, ?_⟩
    · rw [definitions_eq_of_mem hdestination]
      refine List.mem_map.mpr ⟨(first, position), List.mem_filter.mpr ⟨hposition, ?_⟩, rfl⟩
      simp [hhome, hnone]
    · rw [← key_eq_overload hplaced, hkeys]
      exact (key_eq_overload hplaced').symm

end Grouping

end MemberSplit
