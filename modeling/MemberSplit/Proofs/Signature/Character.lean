import Mathlib.Data.List.Basic
import Mathlib.Data.List.DropRight
import Mathlib.Data.List.TakeWhile
import MemberSplit.Signature.Layout

/-!
# Kinds of characters

White space is never part of a word, and what can begin an identifier always is. So the run of one
kind ends where a character of another kind stands.
-/

namespace MemberSplit

theorem toNat_lt_of_isAlphanum {c : Char} (h : c.isAlphanum = true) :
    0x30 ≤ c.toNat ∧ c.toNat < 0x80 := by
  have hrange : ∀ {low high : Char}, low.val ≤ c.val ∧ c.val ≤ high.val →
      low.toNat ≤ c.toNat ∧ c.toNat ≤ high.toNat := fun hbounds =>
    ⟨UInt32.le_iff_toNat_le.mp hbounds.1, UInt32.le_iff_toNat_le.mp hbounds.2⟩
  have hcases : ('A'.toNat ≤ c.toNat ∧ c.toNat ≤ 'Z'.toNat) ∨
      ('a'.toNat ≤ c.toNat ∧ c.toNat ≤ 'z'.toNat) ∨
      ('0'.toNat ≤ c.toNat ∧ c.toNat ≤ '9'.toNat) := by
    rcases Bool.or_eq_true_iff.mp h with halpha | hdigit
    · rcases Bool.or_eq_true_iff.mp halpha with hupper | hlower
      · exact .inl (hrange (of_decide_eq_true hupper))
      · exact .inr (.inl (hrange (by simpa using Bool.and_eq_true_iff.mp hlower)))
    · exact .inr (.inr (hrange (by simpa using Bool.and_eq_true_iff.mp hdigit)))
  have hupper : 'A'.toNat = 65 ∧ 'Z'.toNat = 90 := ⟨rfl, rfl⟩
  have hlower : 'a'.toNat = 97 ∧ 'z'.toNat = 122 := ⟨rfl, rfl⟩
  have hdigit : '0'.toNat = 48 ∧ '9'.toNat = 57 := ⟨rfl, rfl⟩
  omega

theorem isWordChar_of_isAlphanum {c : Char} (h : (c.isAlphanum || c == '_') = true) :
    isWordChar c = true := by
  have hcode : c.toNat < 0x80 := by
    rcases Bool.or_eq_true_iff.mp h with halnum | hunderscore
    · exact (toNat_lt_of_isAlphanum halnum).2
    · rw [eq_of_beq hunderscore]
      decide
  rw [isWordChar, if_pos hcode]
  exact h

theorem isWordChar_of_isIdentStart {c : Char} (h : isIdentStart c = true) :
    isWordChar c = true := by
  apply isWordChar_of_isAlphanum
  rcases Bool.or_eq_true_iff.mp h with halpha | hunderscore
  · rw [Char.isAlphanum, halpha]
    rfl
  · rw [hunderscore, Bool.or_true]

/-- The white space beyond ASCII, as ranges of codes. -/
def wideBlanks : List (Nat × Nat) :=
  [(0x85, 0x85), (0xA0, 0xA0), (0x1680, 0x1680), (0x2000, 0x200A), (0x2028, 0x2029),
   (0x202F, 0x202F), (0x205F, 0x205F), (0x3000, 0x3000)]

theorem wideBlanks_apart : (wideBlanks.all fun blank => 0x80 ≤ blank.1 &&
    wordRanges.all fun range => range.2 < blank.1 || blank.2 < range.1) = true := by
  decide +kernel

theorem isWordChar_of_isBlank {c : Char} (h : isBlank c = true) : isWordChar c = false := by
  have hcases : c.toNat ≤ 0x20 ∨
      ∃ blank ∈ wideBlanks, blank.1 ≤ c.toNat ∧ c.toNat ≤ blank.2 := by
    simp only [isBlank, Bool.or_eq_true, Bool.and_eq_true, decide_eq_true_eq, beq_iff_eq] at h
    simp only [wideBlanks, List.exists_mem_cons_iff, List.not_mem_nil, false_and, exists_false,
      or_false]
    omega
  rcases hcases with hascii | ⟨blank, hblank, hlow, hhigh⟩
  · rw [isWordChar, if_pos (by omega), Bool.or_eq_false_iff]
    refine ⟨?_, ?_⟩
    · rw [Bool.eq_false_iff]
      intro halnum
      have := (toNat_lt_of_isAlphanum halnum).1
      omega
    · rw [beq_eq_false_iff_ne]
      rintro rfl
      exact absurd hascii (by decide)
  · obtain ⟨hwide, hranges⟩ :=
      Bool.and_eq_true_iff.mp (List.all_eq_true.mp wideBlanks_apart blank hblank)
    have hcode : ¬c.toNat < 0x80 := by
      have := of_decide_eq_true hwide
      omega
    rw [isWordChar, if_neg hcode, List.any_eq_false]
    intro range hrange
    have hapart := List.all_eq_true.mp hranges range hrange
    simp only [Bool.or_eq_true, decide_eq_true_eq, Bool.and_eq_true] at hapart ⊢
    omega

namespace Signature

variable {layout : Layout} {c : Char}

theorem eq_of_isLineBlank (h : isLineBlank c = true) : c = ' ' ∨ c = '\t' := by
  simpa [isLineBlank] using h

theorem Layout.isGap_of_isLineBlank (h : isLineBlank c = true) : layout.isGap c = true := by
  rcases eq_of_isLineBlank h with rfl | rfl <;> cases layout <;> decide

theorem isBlank_of_isLineBlank (h : isLineBlank c = true) : isBlank c = true := by
  rcases eq_of_isLineBlank h with rfl | rfl <;> decide

theorem isLineBlank_of_isIdentStart (h : isIdentStart c = true) : isLineBlank c = false := by
  rw [Bool.eq_false_iff]
  intro hblank
  have hword := isWordChar_of_isIdentStart h
  rw [isWordChar_of_isBlank (isBlank_of_isLineBlank hblank)] at hword
  cases hword

theorem Layout.isBlank_of_isGap (h : layout.isGap c = true) : isBlank c = true := by
  cases layout with
  | wrapped => exact h
  | oneLine => exact isBlank_of_isLineBlank h

theorem Layout.isWordChar_of_isGap (h : layout.isGap c = true) : isWordChar c = false :=
  isWordChar_of_isBlank (isBlank_of_isGap h)

theorem Layout.isGap_eq_false (h : isBlank c = false) : layout.isGap c = false := by
  rw [Bool.eq_false_iff]
  intro hgap
  rw [isBlank_of_isGap hgap] at h
  cases h

end Signature

namespace Text

variable {p : Char → Bool} {run rest : Text}

/-- A run ends where the text behind it does not go on with it. -/
theorem takeWhile_run (hrun : ∀ c ∈ run, p c = true) (hrest : rest.head?.any p = false) :
    (run ++ rest).takeWhile p = run := by
  rw [List.takeWhile_append_of_pos hrun]
  cases rest with
  | nil => rw [List.takeWhile_nil, List.append_nil]
  | cons c others =>
      have hc : ¬p c = true := by simpa using hrest
      rw [List.takeWhile_cons_of_neg hc, List.append_nil]

theorem dropWhile_run (hrun : ∀ c ∈ run, p c = true) (hrest : rest.head?.any p = false) :
    (run ++ rest).dropWhile p = rest := by
  rw [List.dropWhile_append_of_pos hrun]
  cases rest with
  | nil => rfl
  | cons c others =>
      have hc : ¬p c = true := by simpa using hrest
      rw [List.dropWhile_cons_of_neg hc]

variable {front : Text}

/-- The run that a text ends with goes back to where the text in front of it does not belong. -/
theorem rtakeWhile_run (hrun : ∀ c ∈ run, p c = true) (hfront : front.getLast?.any p = false) :
    (front ++ run).rtakeWhile p = run := by
  have hhead : front.reverse.head?.any p = false := by
    rwa [List.head?_reverse]
  rw [List.rtakeWhile, List.reverse_append, takeWhile_run (by simpa using hrun) hhead,
    List.reverse_reverse]

theorem rdropWhile_run (hrun : ∀ c ∈ run, p c = true) (hfront : front.getLast?.any p = false) :
    (front ++ run).rdropWhile p = front := by
  have hhead : front.reverse.head?.any p = false := by
    rwa [List.head?_reverse]
  rw [List.rdropWhile, List.reverse_append, dropWhile_run (by simpa using hrun) hhead,
    List.reverse_reverse]

end Text

end MemberSplit
