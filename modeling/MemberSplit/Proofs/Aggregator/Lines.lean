import MemberSplit.Proofs.Aggregator.Loss
import MemberSplit.Proofs.Path.Pieces

/-!
# The lines of an aggregator

How often a line stands in an aggregator is counted part by part: in the banner, in the lead and
among the references.
-/

namespace MemberSplit

namespace Text

/-- How often a line stands in a text, as all that is between two newlines. -/
def countLine (line text : Text) : Nat :=
  (splitBy (· == '\n') text).count line

theorem countLine_append_newline (line front back : Text) :
    countLine line (front ++ '\n' :: back) = countLine line front + countLine line back := by
  have hsplit : List.splitOnP (· == '\n') (front ++ '\n' :: back) =
      List.splitOnP (· == '\n') front ++ List.splitOnP (· == '\n') back :=
    List.splitOn_append_cons_self front back
  simp only [countLine, splitBy_eq_splitOnP, hsplit, List.count_append]

theorem countLine_of_not_mem {text : Text} (h : '\n' ∉ text) (line : Text) :
    countLine line text = if text = line then 1 else 0 := by
  have hsplit : List.splitOnP (· == '\n') text = [text] := List.splitOn_eq_singleton h
  rw [countLine, splitBy_eq_splitOnP, hsplit, List.count_singleton]
  simp

/-- Behind a text that ends a line, lines are counted apart. -/
theorem countLine_append {line front : Text} (hne : line ≠ []) (hfront : front.EndsLine)
    (back : Text) :
    countLine line (front ++ back) = countLine line front + countLine line back := by
  have hempty : countLine line [] = 0 := by
    rw [countLine_of_not_mem (by simp), if_neg hne.symm]
  rcases hfront with rfl | hlast
  · rw [hempty, List.nil_append, Nat.zero_add]
  · obtain ⟨inner, rfl⟩ := List.getLast?_eq_some_iff.mp hlast
    rw [List.append_assoc, countLine_append_newline, List.singleton_append,
      countLine_append_newline, hempty]
    rfl

end Text

namespace Aggregator

theorem countLine_closeLines {lines : List Text} (h : ∀ line ∈ lines, '\n' ∉ line) {line : Text}
    (hne : line ≠ []) : Text.countLine line (closeLines lines) = lines.count line := by
  induction lines with
  | nil =>
      rw [closeLines, List.flatMap_nil, Text.countLine_of_not_mem (by simp), if_neg hne.symm]
      rfl
  | cons first rest ih =>
      obtain ⟨hfirst, hrest⟩ := List.forall_mem_cons.mp h
      have hclose : closeLines (first :: rest) = first ++ '\n' :: closeLines rest := by
        simp [closeLines]
      rw [hclose, Text.countLine_append_newline, ih hrest, Text.countLine_of_not_mem hfirst,
        List.count_cons, Nat.add_comm]
      simp

/-- A line of an aggregator is a line of the banner, of the lead or of the references. -/
theorem countLine_text {aggregator : Aggregator} (hlead : aggregator.lead.EndsLine) {line : Text}
    (hne : line ≠ []) : Text.countLine line aggregator.text =
      Text.countLine line (closeLines aggregator.banner) + Text.countLine line aggregator.lead +
        Text.countLine line (closeLines aggregator.references) := by
  have hbanner := closeLines_endsLine aggregator.banner
  have hopening : (closeLines aggregator.banner ++ aggregator.lead).EndsLine := by
    rcases hlead with hempty | hlast
    · rwa [hempty, List.append_nil]
    · exact .inr (by rw [List.getLast?_append, hlast]; rfl)
  rw [text_eq hlead, Text.countLine_append hne hopening, Text.countLine_append hne hbanner]

end Aggregator

end MemberSplit
