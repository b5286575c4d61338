import Mathlib.Data.List.Destutter
import MemberSplit.Extraction.Basic
import MemberSplit.Proofs.Text.Line

/-!
# Lines that were not recognized

A line is reported if it mentions the owner where neither a signature nor a definition was found,
unless it begins like a comment or a directive. However many such mentions stand on a line, and
whatever lies between them, the line is reported once, and the lines in their order.
-/

namespace MemberSplit

/-- In an ascending list, the equal elements are neighbours. -/
theorem eraseReps_eq_dedup {list : List Nat} (h : list.Pairwise (· ≤ ·)) :
    list.eraseReps = list.dedup := by
  have hloop : ∀ (rest : List Nat) (first : Nat) (kept : List Nat),
      List.eraseRepsBy.loop (· == ·) first rest kept =
        kept.reverse ++ rest.destutter' (· ≠ ·) first := by
    intro rest
    induction rest with
    | nil => simp [List.eraseRepsBy.loop]
    | cons second rest ih =>
        intro first kept
        by_cases hsame : first = second
        · simp [List.eraseRepsBy.loop, hsame, ih]
        · have hbeq : (first == second) = false := beq_false_of_ne hsame
          simp [List.eraseRepsBy.loop, hsame, hbeq, ih]
  have hdestutter : list.eraseReps = list.destutter (· ≠ ·) := by
    cases list with
    | nil => rfl
    | cons first rest => exact hloop rest first []
  rw [hdestutter, h.destutter_eq_dedup]

namespace Signature.Pattern

variable {pattern : Pattern} {offset pending place : Nat} {before : Option Char} {text : Text}

/-- A mention is found where a character of the text begins. -/
theorem exists_append_of_mem_mentionsFrom
    (hmem : place ∈ pattern.mentionsFrom offset before pending text) :
    ∃ front back, text = front ++ back ∧ offset + front.byteLength = place := by
  induction text generalizing offset before pending with
  | nil => cases hmem
  | cons c rest ih =>
      have hlater : ∀ {pending : Nat},
          place ∈ pattern.mentionsFrom (offset + c.utf8Size) (some c) pending rest →
          ∃ front back, c :: rest = front ++ back ∧ offset + Text.byteLength front = place := by
        intro pending hrest
        obtain ⟨front, back, rfl, hplace⟩ := ih hrest
        refine ⟨c :: front, back, rfl, ?_⟩
        rw [Text.byteLength, ← Nat.add_assoc, hplace]
      cases pending with
      | succ pending => exact hlater hmem
      | zero =>
          simp only [mentionsFrom] at hmem
          split at hmem
          next =>
            rcases List.mem_cons.mp hmem with rfl | hrest
            · exact ⟨[], c :: rest, rfl, rfl⟩
            · exact hlater hrest
          next => exact hlater hmem

/-- The mentions are found from left to right. -/
theorem pairwise_mentionsFrom (pattern : Pattern) (offset : Nat) (before : Option Char)
    (pending : Nat) (text : Text) :
    (pattern.mentionsFrom offset before pending text).Pairwise (· < ·) := by
  induction text generalizing offset before pending with
  | nil => exact .nil
  | cons c rest ih =>
      cases pending with
      | succ pending => exact ih _ _ pending
      | zero =>
          simp only [mentionsFrom]
          split
          next =>
            refine List.pairwise_cons.mpr ⟨fun place hmem => ?_, ih _ _ _⟩
            obtain ⟨front, back, -, hplace⟩ := exists_append_of_mem_mentionsFrom hmem
            have hpos := Char.utf8Size_pos c
            omega
          next => exact ih _ _ 0

end Signature.Pattern

namespace Extraction

/-- The offset lies in no signature and in no definition. -/
structure LeavesOut (extraction : Extraction) (offset : Nat) : Prop where
  signatures : ∀ candidate ∈ extraction.candidates,
    ¬(candidate.signature.start ≤ offset ∧ offset ≤ candidate.signature.openingBrace)
  definitions : ∀ definition ∈ extraction.definitions,
    ¬(definition.start ≤ offset ∧ offset < definition.stop)

theorem leavesOut_iff {extraction : Extraction} {offset : Nat} :
    extraction.LeavesOut offset ↔
      (!extraction.candidates.any fun candidate => candidate.covers offset) = true := by
  rw [Bool.not_eq_true', List.any_eq_false]
  have hcovers : ∀ candidate : Candidate, ¬candidate.covers offset = true ↔
      ¬(candidate.signature.start ≤ offset ∧ offset ≤ candidate.signature.openingBrace) ∧
        ∀ definition, candidate.definition? = some definition →
          ¬(definition.start ≤ offset ∧ offset < definition.stop) := by
    intro candidate
    cases hfate : candidate.definition? <;> simp [Candidate.covers, hfate]
  constructor
  · intro h candidate hmem
    refine (hcovers candidate).mpr ⟨h.signatures candidate hmem, fun definition hfate => ?_⟩
    exact h.definitions definition (List.mem_filterMap.mpr ⟨candidate, hmem, hfate⟩)
  · intro h
    refine ⟨fun candidate hmem => ((hcovers candidate).mp (h candidate hmem)).1, ?_⟩
    intro definition hmem
    obtain ⟨candidate, hcandidate, hfate⟩ := List.mem_filterMap.mp hmem
    exact ((hcovers candidate).mp (h candidate hcandidate)).2 definition hfate

end Extraction

/-- Whether the problem is a line that was not recognized. -/
def Diagnostic.isUnrecognizedShape : Diagnostic → Bool
  | .unrecognizedShape .. => true
  | _ => false

/-- What is said of each line that was not recognized, in their order. -/
theorem Extraction.filter_isUnrecognizedShape (extraction : Extraction) :
    extraction.diagnostics.filter Diagnostic.isUnrecognizedShape =
      extraction.unrecognized.map fun shape =>
        .unrecognizedShape shape.1 (shape.2.excerpt Text.excerptLimit) := by
  rw [Extraction.diagnostics, List.filter_append, List.filter_eq_nil_iff.mpr,
    List.filter_eq_self.mpr, List.nil_append]
  · intro diagnostic hmem
    obtain ⟨shape, -, rfl⟩ := List.mem_map.mp hmem
    rfl
  · intro diagnostic hmem
    obtain ⟨candidate, -, hbody⟩ := List.mem_filterMap.mp hmem
    obtain ⟨-, hsome⟩ := Option.ite_none_right_eq_some.mp hbody
    obtain rfl := Option.some.inj hsome
    exact Bool.false_ne_true

namespace Extractor

variable {extractor : Extractor} {source row : Text} {line : Nat}

/-- How a line begins that is a comment, goes on with one, or is a directive. -/
def remarkMarks : List Text :=
  ["//", "/*", "*", "#"]

theorem isRemark_eq_false_iff :
    isRemark row = false ↔ ∀ mark ∈ remarkMarks, ¬mark <+: row.trimStart := by
  rw [isRemark, List.any_eq_false]
  simp [remarkMarks]

/-- The line mentions the owner at an offset that the extraction leaves out, and it is no remark. -/
def IsUnrecognized (extractor : Extractor) (source : Text) (line : Nat) : Prop :=
  ∃ before row after, source.IsLine before row after ∧ line = 1 + before.count '\n' ∧
    (∃ offset ∈ extractor.pattern.mentions source,
      (before.byteLength ≤ offset ∧ offset ≤ before.byteLength + row.byteLength) ∧
        (extractor.extract source).LeavesOut offset) ∧
    ∀ mark ∈ remarkMarks, ¬mark <+: row.trimStart

/-- The mentions that the extraction leaves out. -/
def leftOut (extractor : Extractor) (source : Text) : List Nat :=
  (extractor.pattern.mentions source).filter fun offset =>
    !(extractor.candidates source).any fun candidate => candidate.covers offset

/-- The lines of these mentions, without remarks. -/
def reportedLines (extractor : Extractor) (source : Text) : List Nat :=
  ((extractor.leftOut source).map source.lineAt).eraseReps.filter fun line =>
    !isRemark (source.lineText line)

theorem unrecognized_extract (extractor : Extractor) (source : Text) :
    (extractor.extract source).unrecognized =
      (extractor.reportedLines source).map fun line => (line, source.lineText line) := by
  rw [reportedLines, leftOut, extract, unrecognizedLines, List.filter_map]
  rfl

theorem pairwise_lineAt_leftOut (extractor : Extractor) (source : Text) :
    ((extractor.leftOut source).map source.lineAt).Pairwise (· ≤ ·) := by
  have hmentions : (extractor.pattern.mentions source).Pairwise (· < ·) :=
    Signature.Pattern.pairwise_mentionsFrom extractor.pattern 0 none 0 source
  refine (hmentions.filter _).map source.lineAt fun earlier later hlt => ?_
  exact Text.lineAt_mono source (Nat.le_of_lt hlt)

theorem pairwise_reportedLines (extractor : Extractor) (source : Text) :
    (extractor.reportedLines source).Pairwise (· < ·) := by
  have hle := pairwise_lineAt_leftOut extractor source
  rw [reportedLines, eraseReps_eq_dedup hle]
  apply List.Pairwise.filter
  have hsorted := hle.sublist (List.dedup_sublist _)
  exact (hsorted.and (List.nodup_dedup _)).imp fun hboth => Nat.lt_of_le_of_ne hboth.1 hboth.2

theorem mem_leftOut_iff {offset : Nat} : offset ∈ extractor.leftOut source ↔
    offset ∈ extractor.pattern.mentions source ∧
      (extractor.extract source).LeavesOut offset := by
  rw [leftOut, List.mem_filter, Extraction.leavesOut_iff]
  rfl

theorem mem_reportedLines_iff :
    line ∈ extractor.reportedLines source ↔ extractor.IsUnrecognized source line := by
  rw [reportedLines, List.mem_filter, eraseReps_eq_dedup (pairwise_lineAt_leftOut _ _),
    List.mem_dedup, List.mem_map, Bool.not_eq_true']
  constructor
  · rintro ⟨⟨offset, hmem, rfl⟩, hremark⟩
    obtain ⟨hmention, hleft⟩ := mem_leftOut_iff.mp hmem
    obtain ⟨front, back, htext, hoffset⟩ :=
      Signature.Pattern.exists_append_of_mem_mentionsFrom hmention
    rw [Nat.zero_add] at hoffset
    obtain ⟨before, row, after, hline, hstart, hstop⟩ := Text.exists_isLine front back
    rw [← htext] at hline
    rw [hoffset] at hstart hstop
    have hnumber := hline.lineAt_eq hstart hstop
    rw [hnumber, hline.lineText_eq] at hremark
    exact ⟨before, row, after, hline, hnumber, ⟨offset, hmention, ⟨hstart, hstop⟩, hleft⟩,
      isRemark_eq_false_iff.mp hremark⟩
  · rintro ⟨before, row, after, hline, rfl, ⟨offset, hmention, ⟨hstart, hstop⟩, hleft⟩, hmarks⟩
    refine ⟨⟨offset, mem_leftOut_iff.mpr ⟨hmention, hleft⟩, hline.lineAt_eq hstart hstop⟩, ?_⟩
    rw [hline.lineText_eq]
    exact isRemark_eq_false_iff.mpr hmarks

/-- The lines that mention the owner outside all signatures and definitions, and are no remarks,
are reported in ascending order, each once, and no other line is. -/
theorem filter_isUnrecognizedShape_extract (extractor : Extractor) (source : Text) :
    ∃ lines : List Nat, lines.Pairwise (· < ·) ∧
      (∀ line, line ∈ lines ↔ extractor.IsUnrecognized source line) ∧
      (extractor.extract source).diagnostics.filter Diagnostic.isUnrecognizedShape =
        lines.map (fun line => .unrecognizedShape line
          ((source.lineText line).excerpt Text.excerptLimit)) ∧
      (extractor.extract source).unrecognized.length = lines.length := by
  refine ⟨extractor.reportedLines source, pairwise_reportedLines extractor source,
    fun _ => mem_reportedLines_iff, ?_, ?_⟩
  · rw [Extraction.filter_isUnrecognizedShape, unrecognized_extract, List.map_map]
    rfl
  · rw [unrecognized_extract, List.length_map]

end Extractor

end MemberSplit
