import Mathlib.Data.List.TakeDrop
import Mathlib.Data.List.TakeWhile
import MemberSplit.Text.Basic

/-!
# Characters that a normal form keeps

A normal form of a text drops or inserts white space and other characters of no consequence. The
characters that matter are given by a predicate; where no white space matters, they are the same,
and in the same order, before and after.
-/

namespace MemberSplit.Text

variable {matters : Char → Bool}

theorem filter_eq_nil_of_all {text : Text} (h : ∀ c ∈ text, matters c = false) :
    text.filter matters = [] := by
  rw [List.filter_eq_nil_iff]
  intro c hc
  simp [h c hc]

theorem filter_dropWhile {drops : Char → Bool}
    (hdrops : ∀ c, drops c = true → matters c = false) (text : Text) :
    (text.dropWhile drops).filter matters = text.filter matters := by
  have hfront : (text.takeWhile drops).filter matters = [] :=
    filter_eq_nil_of_all fun c hc => hdrops c (List.mem_takeWhile_imp hc)
  conv_rhs => rw [← List.takeWhile_append_dropWhile (p := drops) (l := text)]
  rw [List.filter_append, hfront, List.nil_append]

theorem filter_joinWith {gap : Text} (hgap : gap.filter matters = []) (parts : List Text) :
    (joinWith gap parts).filter matters = parts.flatMap (List.filter matters) := by
  unfold joinWith
  induction parts with
  | nil => rfl
  | cons part rest ih =>
      cases rest with
      | nil => simp
      | cons next others =>
          rw [List.intercalate_cons_cons, List.filter_append, List.filter_append, hgap, ih]
          simp

section Blanks

variable (hblank : ∀ c, isBlank c = true → matters c = false)
include hblank

theorem filter_trimEnd (text : Text) : text.trimEnd.filter matters = text.filter matters := by
  rw [trimEnd, List.filter_reverse, filter_dropWhile hblank, List.filter_reverse,
    List.reverse_reverse]

theorem flatMap_filter_splitBy (text : Text) :
    (splitBy isBlank text).flatMap (List.filter matters) = text.filter matters := by
  induction text with
  | nil => rfl
  | cons c rest ih =>
      unfold splitBy
      split
      next hc => simp [ih, hblank c hc]
      next =>
        rw [List.filter_cons, ← ih]
        cases splitBy isBlank rest with
        | nil => by_cases hc : matters c = true <;> simp [consPiece, hc]
        | cons piece pieces => by_cases hc : matters c = true <;> simp [consPiece, hc]

theorem flatMap_filter_words (text : Text) :
    (words text).flatMap (List.filter matters) = text.filter matters := by
  rw [← flatMap_filter_splitBy hblank text, words]
  induction splitBy isBlank text with
  | nil => rfl
  | cons piece pieces ih =>
      cases piece with
      | nil => simpa using ih
      | cons c rest => simpa using ih

theorem filter_collapseBlanks (text : Text) :
    text.collapseBlanks.filter matters = text.filter matters := by
  have hspace : List.filter matters [' '] = [] :=
    filter_eq_nil_of_all fun c hc => by
      rw [List.mem_singleton.mp hc]
      exact hblank ' ' rfl
  rw [collapseBlanks, filter_joinWith hspace, flatMap_filter_words hblank]

end Blanks

/-- Replacing keeps what matters, if the two parts agree on it. -/
theorem filter_replaceFrom {part substitute : Text} (hne : part ≠ [])
    (hsame : part.filter matters = substitute.filter matters) (pending : Nat) (text : Text) :
    (replaceFrom part substitute pending text).filter matters =
      (text.drop pending).filter matters := by
  induction text generalizing pending with
  | nil => cases pending <;> rfl
  | cons c rest ih =>
      cases pending with
      | succ pending => rw [replaceFrom, ih, List.drop_succ_cons]
      | zero =>
          unfold replaceFrom
          split
          next hprefix =>
            obtain ⟨behind, hbehind⟩ := List.isPrefixOf_iff_prefix.mp hprefix
            obtain ⟨first, others, rfl⟩ := List.exists_cons_of_ne_nil hne
            obtain ⟨rfl, rfl⟩ := List.cons.inj hbehind
            rw [List.filter_append, ih, ← hsame]
            simp [← List.filter_append]
          next => rw [List.filter_cons, List.drop_zero, List.filter_cons, ih, List.drop_zero]

theorem filter_replace {part substitute : Text} (hne : part ≠ [])
    (hsame : part.filter matters = substitute.filter matters) (text : Text) :
    (replace text part substitute).filter matters = text.filter matters := by
  rw [replace, filter_replaceFrom hne hsame, List.drop_zero]

end MemberSplit.Text
