import MemberSplit.Proofs.Extraction.CommentBlock
import MemberSplit.Proofs.Run.Conservation

/-!
# What becomes of the comments between definitions

A block of comments is in a file if the definition behind it has taken it along and is kept. The
blocks that are counted as dropped are those that no definition has taken along; the comments of a
repetition are in no file either, and are not counted.
-/

namespace MemberSplit

namespace Plan

variable {plan : Plan} {read : Reader} {job : Job}

/-- The comments behind definitions, up to the next one or the end of the source. -/
def commentBlocks (plan : Plan) : List CommentBlock :=
  CommentBlock.list plan.survey.source.text plan.definitions

/-- The block is in a file, as the comments of the definition behind it. -/
def Stores (plan : Plan) (block : CommentBlock) : Prop :=
  ∃ destination ∈ plan.grouping.destinations, ∃ definition ∈ destination.definitions,
    block.next = some definition ∧ definition.comment = block.comment

instance (plan : Plan) (block : CommentBlock) : Decidable (plan.Stores block) :=
  inferInstanceAs (Decidable (∃ destination ∈ plan.grouping.destinations, _))

/-- The definitions that are in some file. -/
def kept (plan : Plan) : List Definition :=
  plan.grouping.destinations.flatMap Destination.definitions

/-- The definitions that are in no file. -/
def repeated (plan : Plan) : List Definition :=
  plan.grouping.repetitions.map fun repetition => repetition.placement.definition

/-- Each definition is in a file or is repeated. -/
theorem kept_append_repeated_perm (plan : Plan) :
    (plan.kept ++ plan.repeated).Perm plan.definitions := by
  have hplaced := (Placement.firsts_append_repetitions_perm []
    (plan.classified.map (Placement.ofClassified plan.namer))).map Placement.definition
  rw [definitions_eq, List.map_append, List.map_map] at hplaced
  have hkept := Grouping.flatMap_definitions_perm plan.namer plan.preamble plan.classified
  exact (hkept.append_right _).trans hplaced

theorem Surveys.nodup_definitions (h : Surveys read job plan) : plan.definitions.Nodup := by
  have hbody : ∀ definition ∈ plan.definitions, definition.body ≠ [] := by
    intro definition hmem
    rw [definitions, h.extraction_eq] at hmem
    obtain ⟨signature, -, hread⟩ := Extractor.exists_isReadFrom hmem
    obtain ⟨inner, rest, -, hbody⟩ := hread.body
    simp [hbody]
  refine ((laidOut h).pairwise hbody).2.imp ?_
  rintro earlier later ⟨hlt, -⟩ rfl
  exact Nat.lt_irrefl _ hlt

theorem Surveys.not_mem_kept (h : Surveys read job plan) {definition : Definition}
    (hmem : definition ∈ plan.repeated) : definition ∉ plan.kept := by
  have hnodup := plan.kept_append_repeated_perm.nodup_iff.mpr h.nodup_definitions
  exact fun hkept => (List.nodup_append.mp hnodup).2.2 definition hkept definition hmem rfl

theorem Surveys.mem_kept_iff (h : Surveys read job plan) {definition : Definition}
    (hmem : definition ∈ plan.definitions) :
    definition ∈ plan.kept ↔ definition ∉ plan.repeated := by
  refine ⟨fun hkept hrepeated => h.not_mem_kept hrepeated hkept, fun hnot => ?_⟩
  rw [← plan.kept_append_repeated_perm.mem_iff] at hmem
  exact (List.mem_append.mp hmem).resolve_right hnot

/-- A block is in a file exactly if a kept definition has taken it along. -/
theorem Surveys.stores_iff (h : Surveys read job plan) {block : CommentBlock}
    (hmem : block ∈ plan.commentBlocks) :
    plan.Stores block ↔ ∃ definition, block.carrier? = some definition ∧
      definition ∈ plan.kept := by
  obtain ⟨hgap, hholds⟩ := List.mem_filter.mp hmem
  constructor
  · rintro ⟨destination, hdestination, definition, hdefinition, hnext, hcomment⟩
    refine ⟨definition, CommentBlock.carrier?_eq_some.mpr ⟨hnext, ?_⟩,
      List.mem_flatMap.mpr ⟨destination, hdestination, hdefinition⟩⟩
    simp [hcomment, CommentBlock.comment]
  · rintro ⟨definition, hcarrier, hkept⟩
    obtain ⟨destination, hdestination, hdefinition⟩ := List.mem_flatMap.mp hkept
    rw [definitions, h.extraction_eq] at hgap
    exact ⟨destination, hdestination, definition, hdefinition,
      (CommentBlock.carrier?_eq_some.mp hcarrier).1,
      (Extractor.comment_eq_of_carrier? hgap hcarrier).2⟩

/-- Of some blocks, those in no file have no definition that takes them along, or one that is not
kept. -/
theorem countP_not_stores {blocks : List CommentBlock}
    (h : ∀ block ∈ blocks, plan.Stores block ↔ ∃ definition, block.carrier? = some definition ∧
      definition ∈ plan.kept) :
    blocks.countP (fun block => ¬ plan.Stores block) =
      blocks.countP (fun block => block.carrier?.isNone) +
        (blocks.filterMap CommentBlock.carrier?).countP (· ∉ plan.kept) := by
  induction blocks with
  | nil => rfl
  | cons block rest ih =>
      obtain ⟨hblock, hrest⟩ := List.forall_mem_cons.mp h
      rw [List.countP_cons, List.countP_cons, List.filterMap_cons, ih hrest]
      cases hcarrier : block.carrier? with
      | none =>
          have hnot : ¬ plan.Stores block := fun hstores => by
            simpa [hcarrier] using hblock.mp hstores
          simp [hnot]
          omega
      | some definition =>
          have hstores : plan.Stores block ↔ definition ∈ plan.kept := by simp [hblock, hcarrier]
          rw [List.countP_cons]
          by_cases hkept : definition ∈ plan.kept <;> simp [hstores, hkept]
          omega

/-- The definitions that take blocks along are those with a comment. -/
theorem Surveys.filterMap_carrier?_commentBlocks (h : Surveys read job plan) :
    plan.commentBlocks.filterMap CommentBlock.carrier? =
      plan.definitions.filter fun definition => !definition.comment.isEmpty := by
  rw [commentBlocks, definitions, h.extraction_eq]
  exact Extractor.filterMap_carrier?_list _ _

/-- The comments that are in no file: those that no definition has taken along, and those of the
repetitions. -/
theorem Surveys.countP_not_stores (h : Surveys read job plan) :
    plan.commentBlocks.countP (fun block => ¬ plan.Stores block) =
      plan.commentBlocks.countP (fun block => block.carrier?.isNone) +
        plan.repeated.countP fun definition => definition.comment ≠ [] := by
  have hcarriers : (plan.commentBlocks.filterMap CommentBlock.carrier?).countP (· ∉ plan.kept) =
      plan.definitions.countP fun definition =>
        definition ∉ plan.kept ∧ definition.comment ≠ [] := by
    rw [h.filterMap_carrier?_commentBlocks, List.countP_filter]
    refine List.countP_congr fun definition _ => ?_
    simp
  have hkept : plan.kept.countP (fun definition =>
      definition ∉ plan.kept ∧ definition.comment ≠ []) = 0 := by
    refine List.countP_eq_zero.mpr fun definition hmem => ?_
    simp [hmem]
  have hrepeated : plan.repeated.countP (fun definition =>
      definition ∉ plan.kept ∧ definition.comment ≠ []) =
        plan.repeated.countP fun definition => definition.comment ≠ [] := by
    refine List.countP_congr fun definition hmem => ?_
    simp [h.not_mem_kept hmem]
  rw [Plan.countP_not_stores fun block hmem => h.stores_iff hmem, hcarriers,
    ← plan.kept_append_repeated_perm.countP_eq, List.countP_append, hkept, hrepeated, Nat.zero_add]

/-- What a count of dropped blocks says about the comments of a plan. -/
structure AccountsForComments (plan : Plan) (dropped : Nat) : Prop where
  /-- A block that a definition has taken along is its comment, and is in a file unless the
  definition is repeated. -/
  carried : ∀ block ∈ plan.commentBlocks, ∀ definition, block.carrier? = some definition →
    definition.comment = block.comment ∧
      (plan.Stores block ↔ definition ∉ plan.repeated)
  stored : ∀ block ∈ plan.commentBlocks, plan.Stores block →
    ∃ destination ∈ plan.grouping.destinations, block.comment <:+: destination.text
  left : ∀ block ∈ plan.commentBlocks, block.carrier? = none → ¬ plan.Stores block
  counted : dropped = plan.commentBlocks.countP fun block => block.carrier?.isNone
  /-- The comments of repetitions are lost without being counted. -/
  lost : plan.commentBlocks.countP (fun block => ¬ plan.Stores block) =
    dropped + plan.repeated.countP fun definition => definition.comment ≠ []
  exact_iff : dropped = plan.commentBlocks.countP (fun block => ¬ plan.Stores block) ↔
    ∀ definition ∈ plan.repeated, definition.comment = []

theorem Surveys.accountsForComments (h : Surveys read job plan) :
    plan.AccountsForComments plan.counts.commentBlocksDropped := by
  have hdropped : plan.counts.commentBlocksDropped =
      plan.commentBlocks.countP fun block => block.carrier?.isNone :=
    Gap.countDropped_list _ _
  have hlost := h.countP_not_stores
  rw [← hdropped] at hlost
  refine
    { carried := ?_
      stored := ?_
      left := ?_
      counted := hdropped
      lost := hlost
      exact_iff := ?_ }
  · intro block hmem definition hcarrier
    have hdefinition : definition ∈ plan.definitions := by
      have hcarriers := List.mem_filterMap.mpr ⟨block, hmem, hcarrier⟩
      rw [h.filterMap_carrier?_commentBlocks] at hcarriers
      exact (List.mem_filter.mp hcarriers).1
    obtain ⟨hgap, -⟩ := List.mem_filter.mp hmem
    rw [definitions, h.extraction_eq] at hgap
    refine ⟨(Extractor.comment_eq_of_carrier? hgap hcarrier).2, ?_⟩
    rw [h.stores_iff hmem, ← h.mem_kept_iff hdefinition, hcarrier]
    simp
  · rintro block - ⟨destination, hdestination, definition, hmem, -, hcomment⟩
    refine ⟨destination, hdestination, ?_⟩
    have hfront : definition.comment <:+: definition.text :=
      ⟨[], definition.head ++ definition.body, by simp [Definition.text]⟩
    exact hcomment ▸ hfront.trans (Destination.text_infix hmem)
  · intro block hmem hcarrier hstores
    simpa [hcarrier] using (h.stores_iff hmem).mp hstores
  · rw [hlost, Nat.left_eq_add, List.countP_eq_zero]
    simp

end Plan

namespace FileTree

/-- What a run does with the comments between and behind its definitions. Each block travels with
the definition behind it or with none; it is in a file, as it is but for white space at its ends,
exactly if that definition is kept; and the blocks that are counted as dropped are all that are in
no file, exactly if no repetition has a comment. -/
theorem accountsForComments_of_run {tree : FileTree} {job : Job} {summary : Summary}
    (h : (tree.run job).outcome = .ok summary) :
    ∃ plan, Plan.ofJob tree.read job = .ok plan ∧
      plan.AccountsForComments summary.counts.commentBlocksDropped := by
  obtain ⟨plan, attempt, hplan, rfl⟩ := exists_plan_of_outcome h
  exact ⟨plan, hplan, (Plan.surveys_of_ofJob hplan).accountsForComments⟩

/-- A source with a comment that travels, one in front of a repetition, and one at the end. -/
def withComments : FileTree :=
  ofFile "Foo.cpp"
    "void Foo::a() {}\n// then\nvoid Foo::b() {}\n// again\nvoid Foo::a() {}\n// end\n"

def withCommentsSummary : { summary : Summary //
    (withComments.run { input := "Foo.cpp" }).outcome = .ok summary ∧
      summary.counts.commentBlocksDropped = 1 } :=
  ⟨_, RunResult.outcome_eq_ok (by decide +kernel), by decide +kernel⟩

/-- Two of its three comments are in no file, and one is counted. -/
theorem accountsForComments_of_run_with_repetition :
    ∃ summary plan, (withComments.run { input := "Foo.cpp" }).outcome = .ok summary ∧
      Plan.ofJob withComments.read { input := "Foo.cpp" } = .ok plan ∧
      summary.counts.commentBlocksDropped = 1 ∧ plan.commentBlocks.length = 3 ∧
      plan.commentBlocks.countP (fun block => ¬ plan.Stores block) = 2 := by
  obtain ⟨summary, hok, hdropped⟩ := withCommentsSummary
  obtain ⟨plan, hplan, haccounts⟩ := accountsForComments_of_run hok
  have hfacts : ∀ plan ∈ (Plan.ofJob withComments.read { input := "Foo.cpp" }).toOption,
      plan.commentBlocks.length = 3 ∧
        plan.repeated.countP (fun definition => definition.comment ≠ []) = 1 := by
    decide +kernel
  obtain ⟨hlength, hrepeated⟩ := hfacts plan (by rw [hplan]; rfl)
  refine ⟨summary, plan, hok, hplan, hdropped, hlength, ?_⟩
  rw [haccounts.lost, hdropped, hrepeated]

end FileTree

end MemberSplit
