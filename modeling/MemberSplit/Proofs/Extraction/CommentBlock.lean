import MemberSplit.Aggregator.Gap
import MemberSplit.Proofs.Extraction.Comment

/-!
# Comments between definitions

Comments that stand behind a definition travel with the next one, if anything travels: what a
definition takes along is made from the gap in front of it. So a definition with comments stands
behind a block of comments, and the blocks that are counted as dropped are those that no definition
has taken along.
-/

namespace MemberSplit

open Lexical (firstCode?)

/-- The text behind a definition, and the next definition. -/
structure CommentBlock where
  gap : Text
  next : Option Definition
  deriving DecidableEq, Repr

namespace CommentBlock

/-- What stands behind each of some definitions, comments or not. -/
def gaps (source : Text) : List Definition → List CommentBlock
  | [] => []
  | [last] => [⟨source.slice last.stop source.byteLength, none⟩]
  | definition :: next :: rest =>
    ⟨source.slice definition.stop next.start, some next⟩ :: gaps source (next :: rest)

/-- Whether there are comments, and nothing else but white space. -/
def holdsComments (block : CommentBlock) : Bool :=
  (firstCode? block.gap).isNone && !block.gap.trim.isEmpty

/-- The gaps behind definitions that hold comments. -/
def list (source : Text) (definitions : List Definition) : List CommentBlock :=
  (gaps source definitions).filter holdsComments

/-- The next definition, if it has taken comments along. -/
def carrier? (block : CommentBlock) : Option Definition :=
  block.next.filter fun definition => !definition.comment.isEmpty

/-- What a block becomes when it travels. -/
def comment (block : CommentBlock) : Text :=
  block.gap.trim ++ ['\n']

variable {source : Text} {definitions : List Definition} {block : CommentBlock}

theorem carrier?_mk (gap : Text) (next : Definition) :
    carrier? ⟨gap, some next⟩ = if next.comment.isEmpty then none else some next := by
  cases hcomment : next.comment.isEmpty <;> simp only [carrier?, Option.filter, hcomment] <;> rfl

theorem carrier?_eq_some {definition : Definition} :
    block.carrier? = some definition ↔
      block.next = some definition ∧ definition.comment ≠ [] := by
  simp [carrier?, Option.filter_eq_some_iff]

/-- Behind a definition comes its gap, then the gaps behind the others. -/
theorem comment_eq_of_mem_gaps_cons {definition : Definition} {rest : List Definition}
    {taken : Text → Text}
    (hfirst : ∀ first, rest.head? = some first →
      first.comment = taken (source.slice definition.stop first.start))
    (hlater : ∀ block ∈ gaps source rest, ∀ next, block.next = some next →
      next.comment = taken block.gap) :
    ∀ block ∈ gaps source (definition :: rest), ∀ next, block.next = some next →
      next.comment = taken block.gap := by
  intro block hmem next hnext
  cases rest with
  | nil =>
      obtain rfl := List.mem_singleton.mp hmem
      cases hnext
  | cons second others =>
      rcases List.mem_cons.mp hmem with rfl | hothers
      · obtain rfl := Option.some.inj hnext
        exact hfirst _ rfl
      · exact hlater block hothers next hnext

theorem filterMap_carrier?_gaps (source : Text) (definitions : List Definition) :
    (gaps source definitions).filterMap carrier? =
      definitions.tail.filter fun definition => !definition.comment.isEmpty := by
  fun_induction gaps source definitions with
  | case1 => rfl
  | case2 last => rfl
  | case3 definition next rest ih =>
      rw [List.filterMap_cons, ih, List.tail_cons, List.tail_cons, List.filter_cons, carrier?_mk]
      cases hcomment : next.comment.isEmpty <;> rfl

end CommentBlock

namespace Gap

theorem content_read_eq_dropped_iff (source : Text) (start stop : Nat) (carries : Bool) :
    (read source start stop carries).content = .dropped ↔
      ((firstCode? (source.slice start stop)).isNone &&
        !List.isEmpty (source.slice start stop).trim) = true ∧ carries = false := by
  cases hcode : firstCode? (source.slice start stop) with
  | some offset => simp [read, hcode]
  | none =>
      cases carries with
      | true => simp [read, hcode]
      | false => cases hblank : List.isEmpty (source.slice start stop).trim <;>
          simp [read, hcode, hblank]

/-- The blocks that are counted are those that no definition takes along. -/
theorem countDropped_list (source : Text) (definitions : List Definition) :
    countDropped (list source definitions) =
      (CommentBlock.list source definitions).countP fun block => block.carrier?.isNone := by
  unfold countDropped CommentBlock.list
  rw [List.countP_filter]
  fun_induction list source definitions with
  | case1 => rfl
  | case2 last =>
      simp [CommentBlock.gaps, List.countP_cons, content_read_eq_dropped_iff,
        CommentBlock.holdsComments, CommentBlock.carrier?]
  | case3 definition next rest ih =>
      have hcarrier : (CommentBlock.carrier? ⟨source.slice definition.stop next.start,
          some next⟩).isNone = next.comment.isEmpty := by
        rw [CommentBlock.carrier?_mk]
        cases next.comment.isEmpty <;> rfl
      rw [CommentBlock.gaps, List.countP_cons, List.countP_cons, ih, hcarrier]
      simp [content_read_eq_dropped_iff, CommentBlock.holdsComments, and_comm]

end Gap

namespace Extractor

variable {extractor : Extractor} {source : Text}

/-- What a definition takes along is made from the gap in front of it. -/
theorem comment_eq_of_candidatesFrom (previousStop : Option Nat) (signatures : List Signature) :
    (∀ stop, previousStop = some stop → ∀ first,
      ((extractor.candidatesFrom source previousStop signatures).filterMap
        Candidate.definition?).head? = some first →
          first.comment = travellingComment extractor.mode (source.slice stop first.start)) ∧
    ∀ block ∈ CommentBlock.gaps source
      ((extractor.candidatesFrom source previousStop signatures).filterMap
        Candidate.definition?),
      ∀ next, block.next = some next →
        next.comment = travellingComment extractor.mode block.gap := by
  induction signatures generalizing previousStop with
  | nil => simp [candidatesFrom, CommentBlock.gaps]
  | cons signature others ih =>
      simp only [candidatesFrom]
      split
      next => exact ih previousStop
      next =>
        split
        next => exact ih previousStop
        next inner rest hsplit =>
          refine ⟨?_, ?_⟩
          · rintro stop rfl first hfirst
            obtain rfl := Option.some.inj hfirst
            rfl
          · -- The next gap begins where the definition that has just been extracted ends.
            obtain ⟨hfirst, hlater⟩ := ih (some _)
            exact CommentBlock.comment_eq_of_mem_gaps_cons (hfirst _ rfl) hlater

/-- A definition has taken along what can travel of the block in front of it. -/
theorem comment_eq_of_mem_gaps {block : CommentBlock} {next : Definition}
    (hmem : block ∈ CommentBlock.gaps source (extractor.extract source).definitions)
    (hnext : block.next = some next) :
    next.comment = travellingComment extractor.mode block.gap :=
  (comment_eq_of_candidatesFrom none _).2 block hmem next hnext

/-- A block whose next definition has taken comments along holds these. -/
theorem comment_eq_of_carrier? {block : CommentBlock} {definition : Definition}
    (hmem : block ∈ CommentBlock.gaps source (extractor.extract source).definitions)
    (hcarrier : block.carrier? = some definition) :
    block.holdsComments = true ∧ definition.comment = block.comment := by
  obtain ⟨hnext, hne⟩ := CommentBlock.carrier?_eq_some.mp hcarrier
  have hcomment := comment_eq_of_mem_gaps hmem hnext
  rw [hcomment] at hne
  obtain ⟨hcode, htrim⟩ := (travellingComment_eq _ block.gap).resolve_left hne
  have hsome : block.gap.trim ≠ [] := by
    intro hempty
    simp [travellingComment, hcode, hempty] at hne
  refine ⟨?_, hcomment.trans htrim⟩
  simp [CommentBlock.holdsComments, hcode, hsome]

/-- The definitions that have taken comments along stand behind the blocks of comments. -/
theorem filterMap_carrier?_list (extractor : Extractor) (source : Text) :
    (CommentBlock.list source (extractor.extract source).definitions).filterMap
        CommentBlock.carrier? =
      (extractor.extract source).definitions.filter fun definition =>
        !definition.comment.isEmpty := by
  have hblocks : (CommentBlock.list source (extractor.extract source).definitions).filterMap
      CommentBlock.carrier? =
      (CommentBlock.gaps source (extractor.extract source).definitions).filterMap
        CommentBlock.carrier? := by
    rw [CommentBlock.list, List.filterMap_filter]
    refine List.filterMap_congr fun block hmem => ?_
    cases hcarrier : block.carrier? with
    | none => simp
    | some definition => simp [(comment_eq_of_carrier? hmem hcarrier).1]
  rw [hblocks, CommentBlock.filterMap_carrier?_gaps]
  cases hdefinitions : (extractor.extract source).definitions with
  | nil => rfl
  | cons first rest =>
      -- Nothing can travel with the first definition, for nothing stands behind one before it.
      have hhead : ((extractor.candidatesFrom source none
          (extractor.pattern.signatures source)).filterMap Candidate.definition?).head? =
            some first := congrArg List.head? hdefinitions
      simp [comment_eq_nil_of_head? hhead]

end Extractor

end MemberSplit
