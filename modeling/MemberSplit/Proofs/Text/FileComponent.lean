import MemberSplit.Proofs.Text.Words
import MemberSplit.Text.FileComponent

/-!
# What is made safe for a file name

The part of a file name that is made from a text has file characters only, so no slash, dot or
brace. A text that is such a part already stays as it is.
-/

namespace MemberSplit.Text

variable {text : Text}

theorem isFileChar_of_mem_squeeze {inRun : Bool} {c : Char} (h : c ∈ squeeze inRun text) :
    isFileChar c = true := by
  induction text generalizing inRun with
  | nil => cases h
  | cons d rest ih =>
      unfold squeeze at h
      split at h
      next hd => exact (List.mem_cons.mp h).elim (fun heq => heq ▸ hd) ih
      next =>
        split at h
        next => exact ih h
        next => exact (List.mem_cons.mp h).elim (fun heq => heq ▸ rfl) ih

theorem isFileChar_of_mem_fileComponent {c : Char} (h : c ∈ text.fileComponent) :
    isFileChar c = true := by
  have hfront := (List.dropWhile_suffix _).subset (List.mem_reverse.mp h)
  have hback := (List.dropWhile_suffix _).subset (List.mem_reverse.mp hfront)
  exact isFileChar_of_mem_squeeze hback

/-- Whether a text can be part of a file name as it is. -/
def IsFilePart (text : Text) : Prop :=
  text.all isFileChar = true ∧ text.head? ≠ some '_' ∧ text.getLast? ≠ some '_'

instance (text : Text) : Decidable text.IsFilePart :=
  inferInstanceAs (Decidable (_ ∧ _ ∧ _))

theorem IsFilePart.not_mem (h : text.IsFilePart) {c : Char} (hc : isFileChar c = false) :
    c ∉ text := by
  intro hmem
  rw [List.all_eq_true.mp h.1 c hmem] at hc
  cases hc

theorem squeeze_eq_self (h : ∀ c ∈ text, isFileChar c = true) (inRun : Bool) :
    squeeze inRun text = text := by
  induction text generalizing inRun with
  | nil => rfl
  | cons c rest ih =>
      obtain ⟨hc, hrest⟩ := List.forall_mem_cons.mp h
      rw [squeeze, if_pos hc, ih hrest]

theorem dropWhile_eq_self_of_head? (h : text.head? ≠ some '_') :
    text.dropWhile (· == '_') = text := by
  cases text with
  | nil => rfl
  | cons c rest =>
      have hc : c ≠ '_' := fun heq => h (congrArg some heq)
      exact List.dropWhile_cons_of_neg (by simpa using hc)

theorem IsFilePart.fileComponent_eq (h : text.IsFilePart) : text.fileComponent = text := by
  obtain ⟨hchars, hhead, hlast⟩ := h
  simp only [fileComponent]
  rw [squeeze_eq_self (List.all_eq_true.mp hchars), dropWhile_eq_self_of_head? hhead,
    dropWhile_eq_self_of_head? (by rwa [List.head?_reverse]), List.reverse_reverse]

/-- What is made from a text can be part of a file name. -/
theorem isFilePart_fileComponent (text : Text) : text.fileComponent.IsFilePart := by
  have hstart : ((squeeze false text).dropWhile (· == '_')).head? ≠ some '_' := by
    intro hhead
    have hnot := any_head?_dropWhile (· == '_') (squeeze false text)
    rw [hhead] at hnot
    exact absurd hnot (by decide)
  refine ⟨List.all_eq_true.mpr fun _ => isFileChar_of_mem_fileComponent, ?_, ?_⟩
  · -- What is left is empty, or begins as the text did before its end was cut.
    intro hhead
    have hprefix : text.fileComponent <+: (squeeze false text).dropWhile (· == '_') :=
      List.rdropWhile_prefix (· == '_') _
    obtain ⟨rest, hrest⟩ := List.head?_eq_some_iff.mp hhead
    obtain ⟨behind, hbehind⟩ := hprefix
    rw [hrest] at hbehind
    exact hstart (by rw [← hbehind]; rfl)
  · intro hlast
    have hnot := any_getLast?_rdropWhile (· == '_') ((squeeze false text).dropWhile (· == '_'))
    have heq : ((squeeze false text).dropWhile (· == '_')).rdropWhile (· == '_') =
        text.fileComponent := rfl
    rw [heq, hlast] at hnot
    exact absurd hnot (by decide)

theorem not_mem_fileComponent {c : Char} (h : isFileChar c = false) (text : Text) :
    c ∉ text.fileComponent :=
  text.isFilePart_fileComponent.not_mem h

/-- To make a text safe for the second time does nothing. -/
theorem fileComponent_fileComponent (text : Text) :
    text.fileComponent.fileComponent = text.fileComponent :=
  text.isFilePart_fileComponent.fileComponent_eq

end MemberSplit.Text
