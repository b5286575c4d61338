import Mathlib.Data.List.DropRight
import Mathlib.Data.List.TakeWhile
import MemberSplit.Text.Basic

/-!
# Words between white space

The words of a text come apart at each character of white space, and a run of other characters is a
word. What a function does to the words of a text follows from these two facts.
-/

namespace MemberSplit.Text

theorem splitBy_eq_splitOnP (isSeparator : Char → Bool) (text : Text) :
    Text.splitBy isSeparator text = text.splitOnP isSeparator := by
  induction text with
  | nil => exact List.splitOnP_nil.symm
  | cons c rest ih =>
      rw [List.splitOnP_cons_eq_if_modifyHead, Text.splitBy, ih]
      cases hrest : List.splitOnP isSeparator rest with
      | nil => exact absurd hrest (List.splitOnP_ne_nil _ _)
      | cons piece pieces => rfl

theorem words_append_cons {c : Char} (hc : isBlank c = true) (front rest : Text) :
    words (front ++ c :: rest) = words front ++ words rest := by
  simp only [words, splitBy_eq_splitOnP]
  rw [List.splitOnP_append_cons _ _ hc, List.filter_append]

theorem words_blanks_append {gap : Text} (hgap : ∀ c ∈ gap, isBlank c = true) (rest : Text) :
    words (gap ++ rest) = words rest := by
  induction gap with
  | nil => rfl
  | cons c others ih =>
      obtain ⟨hc, hothers⟩ := List.forall_mem_cons.mp hgap
      exact (words_append_cons hc [] _).trans (ih hothers)

theorem words_append_blanks {gap : Text} (hgap : ∀ c ∈ gap, isBlank c = true) (hne : gap ≠ [])
    (front rest : Text) : words (front ++ (gap ++ rest)) = words front ++ words rest := by
  obtain ⟨c, others, rfl⟩ := List.exists_cons_of_ne_nil hne
  obtain ⟨hc, hothers⟩ := List.forall_mem_cons.mp hgap
  rw [List.cons_append, words_append_cons hc, words_blanks_append hothers]

/-- A text without white space is one word, if it is not empty. -/
theorem words_of_visible {run : Text} (hrun : ∀ c ∈ run, isBlank c = false) :
    words run = if run = [] then [] else [run] := by
  rw [words, splitBy_eq_splitOnP, List.splitOnP_eq_singleton hrun]
  cases run with
  | nil => rfl
  | cons c rest => rfl

theorem any_head?_dropWhile (p : Char → Bool) (text : Text) :
    (text.dropWhile p).head?.any p = false := by
  have hnot := List.head?_dropWhile_not p text
  cases hhead : (text.dropWhile p).head? with
  | none => rfl
  | some c => simpa [hhead] using hnot

theorem any_getLast?_rdropWhile (p : Char → Bool) (text : Text) :
    (text.rdropWhile p).getLast?.any p = false := by
  rw [List.rdropWhile, List.getLast?_reverse]
  exact any_head?_dropWhile p _

/-- A text can be gone through from one character of a kind to the next. -/
theorem induction_on_breaks {motive : Text → Prop} (isBreak : Char → Bool)
    (run : ∀ run : Text, (∀ c ∈ run, isBreak c = false) → motive run)
    (step : ∀ (run : Text) (c : Char) (rest : Text), (∀ c ∈ run, isBreak c = false) →
      isBreak c = true → motive rest → motive (run ++ c :: rest)) (text : Text) :
    motive text := by
  induction hlength : text.length using Nat.strongRecOn generalizing text with
  | ind length ih =>
      have hrun : ∀ c ∈ text.takeWhile fun c => !isBreak c, isBreak c = false := fun c hc => by
        simpa using List.mem_takeWhile_imp hc
      have hsplit : text.takeWhile (fun c => !isBreak c) ++ text.dropWhile (fun c => !isBreak c) =
          text := List.takeWhile_append_dropWhile
      cases hdrop : text.dropWhile fun c => !isBreak c with
      | nil =>
          rw [hdrop, List.append_nil] at hsplit
          rw [← hsplit]
          exact run _ hrun
      | cons c rest =>
          have hc : isBreak c = true := by
            have hnot := any_head?_dropWhile (fun c => !isBreak c) text
            simpa [hdrop] using hnot
          rw [hdrop] at hsplit
          have hshort : rest.length < length := by
            rw [← hlength, ← hsplit, List.length_append, List.length_cons]
            omega
          rw [← hsplit]
          exact step _ c rest hrun hc (ih rest.length hshort rest rfl)

theorem visible_of_mem_words {text word : Text} (h : word ∈ words text) :
    word ≠ [] ∧ ∀ c ∈ word, isBlank c = false := by
  induction text using induction_on_breaks isBlank with
  | run run hrun =>
      rw [words_of_visible hrun] at h
      split at h
      next => cases h
      next hne =>
        rw [List.mem_singleton.mp h]
        exact ⟨hne, hrun⟩
  | step run c rest hrun hc ih =>
      rw [words_append_cons hc, words_of_visible hrun] at h
      rcases List.mem_append.mp h with hword | hrest
      · split at hword
        next => cases hword
        next hne =>
          rw [List.mem_singleton.mp hword]
          exact ⟨hne, hrun⟩
      · exact ih hrest

end MemberSplit.Text
