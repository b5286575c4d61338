import MemberSplit.Destination.Basic

/-!
# Rules leave no trace in files

Definitions are distributed over files by their groups. Which rule gave a definition its group is in
no file, and it makes no difference to what is dropped as a repetition.
-/

namespace MemberSplit

variable (rule : Classified → Rule)

/-- A classified definition under another rule, but in the same group. -/
def Classified.relabel (classified : Classified) : Classified :=
  { classified with rule := rule classified }

/-- A placement of a definition under another rule. -/
def Placement.relabel (placement : Placement) : Placement :=
  { placement with classified := placement.classified.relabel rule }

/-- A repetition of a definition under another rule. -/
def Repetition.relabel (repetition : Repetition) : Repetition :=
  ⟨repetition.placement.relabel rule, repetition.kept.relabel rule⟩

namespace Placement

theorem any_collides_relabel (kept : List Placement) (placement : Placement) :
    (kept.map (relabel rule)).any (placement.relabel rule).collides =
      kept.any placement.collides :=
  List.any_map

theorem find?_collides_relabel (kept : List Placement) (placement : Placement) :
    (kept.map (relabel rule)).find? (placement.relabel rule).collides =
      (kept.find? placement.collides).map (relabel rule) :=
  List.find?_map ..

theorem firsts_relabel (kept placements : List Placement) :
    firsts (kept.map (relabel rule)) (placements.map (relabel rule)) =
      (firsts kept placements).map (relabel rule) := by
  induction placements generalizing kept with
  | nil => rfl
  | cons placement rest ih =>
      simp only [List.map_cons, firsts, any_collides_relabel]
      split
      next => exact ih kept
      next =>
        rw [List.map_cons, ← ih, List.map_append]
        rfl

theorem repetitions_relabel (kept placements : List Placement) :
    repetitions (kept.map (relabel rule)) (placements.map (relabel rule)) =
      (repetitions kept placements).map (Repetition.relabel rule) := by
  induction placements generalizing kept with
  | nil => rfl
  | cons placement rest ih =>
      simp only [List.map_cons, repetitions, find?_collides_relabel]
      cases kept.find? placement.collides with
      | some first => exact congrArg _ (ih kept)
      | none =>
          simp only [Option.map_none]
          rw [← ih, List.map_append]
          rfl

end Placement

theorem Destination.ofPlacements?_relabel (preamble : Preamble) (placements : List Placement) :
    ofPlacements? preamble (placements.map (Placement.relabel rule)) =
      ofPlacements? preamble placements := by
  funext path
  have hfilter : ((placements.map (Placement.relabel rule)).filter fun placement =>
      placement.path = path) =
        (placements.filter fun placement => placement.path = path).map (Placement.relabel rule) :=
    List.filter_map
  unfold ofPlacements?
  rw [hfilter]
  cases placements.filter fun placement => placement.path = path with
  | nil => rfl
  | cons first rest =>
      simp [Placement.relabel, Classified.relabel, Placement.definition, Function.comp_def]

namespace Grouping

variable (namer : FileNaming) (preamble : Preamble) (list : List Classified)

theorem map_ofClassified_relabel :
    (list.map (Classified.relabel rule)).map (Placement.ofClassified namer) =
      (list.map (Placement.ofClassified namer)).map (Placement.relabel rule) := by
  rw [List.map_map, List.map_map]
  rfl

/-- The files are the same under all rules. -/
theorem destinations_relabel :
    (ofClassified namer preamble (list.map (Classified.relabel rule))).destinations =
      (ofClassified namer preamble list).destinations := by
  have hkept := Placement.firsts_relabel rule [] (list.map (Placement.ofClassified namer))
  rw [List.map_nil] at hkept
  have hpaths : ((Placement.firsts [] (list.map (Placement.ofClassified namer))).map
      (Placement.relabel rule)).map Placement.path =
        (Placement.firsts [] (list.map (Placement.ofClassified namer))).map Placement.path :=
    List.map_map
  simp only [ofClassified]
  rw [map_ofClassified_relabel, hkept, Destination.ofPlacements?_relabel, hpaths]

/-- The same definitions are dropped under all rules. -/
theorem repetitions_ofClassified_relabel :
    (ofClassified namer preamble (list.map (Classified.relabel rule))).repetitions =
      (ofClassified namer preamble list).repetitions.map (Repetition.relabel rule) := by
  unfold ofClassified
  rw [map_ofClassified_relabel]
  exact Placement.repetitions_relabel rule [] _

end Grouping

end MemberSplit
