import Mathlib.Data.List.Basic
import Mathlib.Data.List.DropRight
import MemberSplit.Proofs.Text.Cut
import MemberSplit.Text.Line

/-!
# The line of a place

The line that is found for an offset tells how many newlines stand in front of it, and the text that
is found for a line is what stands between two newlines.
-/

namespace MemberSplit.Text

theorem newlineEnds_append (offset : Nat) (before after : Text) :
    newlineEnds offset (before ++ after) =
      newlineEnds offset before ++ newlineEnds (offset + before.byteLength) after := by
  induction before generalizing offset with
  | nil => simp [newlineEnds, byteLength]
  | cons c rest ih =>
      have hrest := ih (offset + c.utf8Size)
      simp only [List.cons_append, newlineEnds, byteLength, hrest, ← Nat.add_assoc]
      split <;> rfl

theorem length_newlineEnds (offset : Nat) (text : Text) :
    (newlineEnds offset text).length = text.count '\n' := by
  induction text generalizing offset with
  | nil => rfl
  | cons c rest ih =>
      by_cases hc : c = '\n'
      · simp [newlineEnds, hc, ih]
      · simp [newlineEnds, hc, ih, List.count_cons_of_ne hc]

theorem lt_of_mem_newlineEnds {offset stop : Nat} {text : Text}
    (hmem : stop ∈ newlineEnds offset text) :
    offset < stop ∧ stop ≤ offset + text.byteLength := by
  induction text generalizing offset with
  | nil => simp [newlineEnds] at hmem
  | cons c rest ih =>
      have hsize := Char.utf8Size_pos c
      have hcases : stop = offset + c.utf8Size ∨ stop ∈ newlineEnds (offset + c.utf8Size) rest := by
        simp only [newlineEnds] at hmem
        split at hmem
        · exact List.mem_cons.mp hmem
        · exact .inr hmem
      simp only [byteLength]
      rcases hcases with rfl | hlater
      · omega
      · obtain ⟨hstart, hstop⟩ := ih hlater
        omega

/-- The line of a place is one more than the number of newlines in front of it. -/
theorem lineAt_byteLength (before after : Text) :
    (before ++ after).lineAt before.byteLength = 1 + before.count '\n' := by
  have hbefore : (newlineEnds 0 before).countP (· ≤ before.byteLength) = before.count '\n' := by
    rw [← length_newlineEnds 0 before, List.countP_eq_length]
    intro stop hmem
    obtain ⟨-, hstop⟩ := lt_of_mem_newlineEnds hmem
    exact decide_eq_true (by omega)
  have hafter : (newlineEnds (0 + before.byteLength) after).countP
      (· ≤ before.byteLength) = 0 := by
    rw [List.countP_eq_zero]
    intro stop hmem
    obtain ⟨hstart, -⟩ := lt_of_mem_newlineEnds hmem
    simp only [decide_eq_true_eq]
    omega
  rw [lineAt, lineStarts, newlineEnds_append, List.countP_cons, List.countP_append, hbefore,
    hafter]
  simp [Nat.add_comm]

/-- Whether a line begins behind a text. -/
def EndsLine (before : Text) : Prop :=
  before = [] ∨ before.getLast? = some '\n'

theorem EndsLine.of_append {front back : Text} (h : (front ++ back).EndsLine) :
    back.EndsLine := by
  rcases h with hnil | hlast
  · exact .inl (List.append_eq_nil_iff.mp hnil).2
  · cases hback : back.getLast? with
    | none => exact .inl (List.getLast?_eq_none_iff.mp hback)
    | some c =>
        rw [List.getLast?_append, hback] at hlast
        exact .inr (hback.trans hlast)

/-- The row is a line of the text: it stands between two newlines, or beside an end of the text. -/
structure IsLine (text before row after : Text) : Prop where
  text_eq : text = before ++ (row ++ after)
  begins : before.EndsLine
  single : '\n' ∉ row
  ends : after = [] ∨ after.head? = some '\n'

variable {text before row after : Text}

theorem lineAt_mono (text : Text) {earlier later : Nat} (h : earlier ≤ later) :
    text.lineAt earlier ≤ text.lineAt later := by
  apply List.countP_mono_left
  intro start _ hstart
  have hle := of_decide_eq_true hstart
  exact decide_eq_true (Nat.le_trans hle h)

/-- Every place of a text lies on a line, the newline that ends a line being part of it. -/
theorem exists_isLine (front back : Text) :
    ∃ before row after, IsLine (front ++ back) before row after ∧
      before.byteLength ≤ front.byteLength ∧
        front.byteLength ≤ before.byteLength + row.byteLength := by
  have hfront : front.rdropWhile (· != '\n') ++ front.rtakeWhile (· != '\n') = front :=
    List.rdropWhile_append_rtakeWhile
  have hlength := congrArg byteLength hfront
  rw [byteLength_append] at hlength
  refine ⟨front.rdropWhile (· != '\n'),
    front.rtakeWhile (· != '\n') ++ back.takeWhile (· != '\n'), back.dropWhile (· != '\n'),
    { text_eq := ?_, begins := ?_, single := ?_, ends := ?_ }, ?_, ?_⟩
  · rw [List.append_assoc, List.takeWhile_append_dropWhile, ← List.append_assoc, hfront]
  · by_cases hnil : front.rdropWhile (· != '\n') = []
    · exact .inl hnil
    · right
      have hlast := List.rdropWhile_last_not (· != '\n') front hnil
      rw [List.getLast?_eq_some_getLast hnil]
      simpa using hlast
  · intro hmem
    rcases List.mem_append.mp hmem with hleft | hright
    · exact absurd (List.mem_rtakeWhile_imp hleft) (by decide)
    · exact absurd (List.mem_takeWhile_imp hright) (by decide)
  · cases hback : back.dropWhile (· != '\n') with
    | nil => exact .inl rfl
    | cons c rest =>
        right
        have hhead := List.head?_dropWhile_not (· != '\n') back
        rw [hback] at hhead
        simpa using hhead
  · omega
  · rw [byteLength_append]
    omega

/-- All places of a line have its number. -/
theorem IsLine.lineAt_eq (h : IsLine text before row after) {offset : Nat}
    (hstart : before.byteLength ≤ offset) (hstop : offset ≤ before.byteLength + row.byteLength) :
    text.lineAt offset = 1 + before.count '\n' := by
  have hfirst : text.lineAt before.byteLength = 1 + before.count '\n' := by
    rw [h.text_eq, lineAt_byteLength]
  have hlast : text.lineAt (before ++ row).byteLength = 1 + before.count '\n' := by
    rw [h.text_eq, ← List.append_assoc, lineAt_byteLength, List.count_append,
      List.count_eq_zero.mpr h.single, Nat.add_zero]
  rw [byteLength_append] at hlast
  apply Nat.le_antisymm
  · rw [← hlast]
    exact lineAt_mono text hstop
  · rw [← hfirst]
    exact lineAt_mono text hstart

theorem EndsLine.lineStarts_eq (h : before.EndsLine) :
    ∃ starts, lineStarts before = starts ++ [before.byteLength] ∧
      starts.length = before.count '\n' := by
  rcases h with rfl | hlast
  · exact ⟨[], rfl, rfl⟩
  · obtain ⟨front, rfl⟩ := List.getLast?_eq_some_iff.mp hlast
    have hone : Char.utf8Size '\n' = 1 := by decide
    refine ⟨lineStarts front, ?_, ?_⟩
    · rw [lineStarts, newlineEnds_append, byteLength_append]
      simp [newlineEnds, lineStarts, byteLength, hone]
    · rw [lineStarts, List.length_cons, length_newlineEnds, List.count_append]
      rfl

theorem IsLine.lineStarts_eq (h : IsLine text before row after) :
    ∃ starts, starts.length = before.count '\n' ∧ lineStarts text = starts ++ before.byteLength ::
      newlineEnds (before.byteLength + row.byteLength) after := by
  obtain ⟨starts, hstarts, hlength⟩ := h.begins.lineStarts_eq
  refine ⟨starts, hlength, ?_⟩
  have hrow : newlineEnds (0 + before.byteLength) row = [] := by
    rw [← List.length_eq_zero_iff, length_newlineEnds, List.count_eq_zero]
    exact h.single
  rw [h.text_eq, lineStarts, newlineEnds_append, newlineEnds_append, hrow, List.nil_append,
    ← List.cons_append, ← lineStarts, hstarts, Nat.zero_add, List.append_assoc]
  rfl

/-- A line spans the bytes up to its newline, or up to the end of the text. -/
theorem IsLine.lineSpan_eq (h : IsLine text before row after) :
    lineSpan text (1 + before.count '\n') = (before.byteLength, (before ++ row).byteLength) := by
  obtain ⟨starts, hlength, hall⟩ := h.lineStarts_eq
  have hline : 1 + before.count '\n' - 1 = starts.length := by omega
  have hnext : 1 + before.count '\n' = starts.length + 1 := by omega
  have hstart : (lineStarts text).getD (1 + before.count '\n' - 1) 0 = before.byteLength := by
    simp [hall, hline]
  have hstop : (lineStarts text)[1 + before.count '\n']? =
      (newlineEnds (before.byteLength + row.byteLength) after)[0]? := by
    simp [hall, hnext, List.getElem?_append_right]
  rw [lineSpan, hstart, hstop, byteLength_append]
  rcases h.ends with hnil | hhead
  · simp [hnil, newlineEnds, h.text_eq, byteLength_append]
  · obtain ⟨others, rfl⟩ := List.head?_eq_some_iff.mp hhead
    have hone : Char.utf8Size '\n' = 1 := by decide
    simp [newlineEnds, hone]

/-- The text of a line is what stands in its place. -/
theorem IsLine.lineText_eq (h : IsLine text before row after) :
    text.lineText (1 + before.count '\n') = row := by
  rw [lineText, h.lineSpan_eq]
  exact slice_eq_between after h.text_eq rfl rfl

end MemberSplit.Text
