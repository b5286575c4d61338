import MemberSplit.Aggregator.Basic
import MemberSplit.Lexical.FirstCode
import MemberSplit.Proofs.Signature.Place
import MemberSplit.Proofs.Signature.Silence

/-!
# What surrounds definitions

In front of the first definition stand blank lines, directives and comments; between two definitions
stand white space and comments. The search for signatures finds nothing there: a line of such a text
begins with a character that opens no signature, or inside a block comment, which ends in a slash.
-/

namespace MemberSplit

namespace Lexical

/-- White space, comments up to the end of their line, and block comments up to their first end. -/
inductive IsFillerText : Text → Prop
  | nil : IsFillerText []
  | filler {c : Char} {rest : Text} : isFiller c = true → IsFillerText rest →
      IsFillerText (c :: rest)
  | lineComment {inner rest : Text} : '\n' ∉ inner → IsFillerText rest →
      IsFillerText ("//".toList ++ inner ++ '\n' :: rest)
  | blockComment {inner rest : Text} : ¬"*/".toList <:+: inner ++ ['*'] → IsFillerText rest →
      IsFillerText ("/*".toList ++ inner ++ "*/".toList ++ rest)

/-- The line is blank, a directive or a comment. -/
structure IsLeadLine (line : Text) : Prop where
  single : '\n' ∉ line
  remark : line.trimStart = [] ∨ "#".toList <+: line.trimStart ∨ "//".toList <+: line.trimStart

theorem isLeadLine_of_comment {line : Text} (hsingle : '\n' ∉ line)
    (hmark : "//".toList <+: line) : IsLeadLine line := by
  obtain ⟨tail, rfl⟩ := hmark
  exact ⟨hsingle, .inr (.inr ⟨tail, rfl⟩)⟩

end Lexical

namespace Signature.Pattern

open Lexical (IsFillerText IsLeadLine isFiller)

variable {pattern : Pattern} {before : Option Char} {atLineStart : Bool} {text : Text}

theorem opens_of_isFiller {c : Char} (h : isFiller c = true) : opens c = false := by
  rw [Bool.eq_false_iff]
  intro hopens
  rcases Bool.or_eq_true_iff.mp h with hblank | hmark
  · rcases Bool.or_eq_true_iff.mp hopens with hstart | hcolon
    · have hword := isWordChar_of_isIdentStart hstart
      rw [isWordChar_of_isBlank hblank] at hword
      cases hword
    · rw [eq_of_beq hcolon] at hblank
      exact absurd hblank (by decide)
  · rw [eq_of_beq hmark] at hopens
    exact absurd hopens (by decide)

/-- A filler text that ends a line begins, blanks apart, with nothing that opens a signature. -/
theorem exists_dropWhile_of_isFillerText (h : IsFillerText text)
    (hlast : text.getLast? = some '\n') :
    ∃ c rest, text.dropWhile isLineBlank = c :: rest ∧ opens c = false := by
  have hslash : ¬isLineBlank '/' = true := by decide
  induction h with
  | nil => cases hlast
  | @filler c rest hc _ ih =>
      by_cases hblank : isLineBlank c = true
      · rw [List.dropWhile_cons_of_pos hblank]
        cases rest with
        | nil =>
            obtain rfl : c = '\n' := by simpa using hlast
            exact absurd hblank (by decide)
        | cons d others =>
            apply ih
            simpa [List.getLast?_cons] using hlast
      · exact ⟨c, rest, List.dropWhile_cons_of_neg hblank, opens_of_isFiller hc⟩
  | lineComment => exact ⟨'/', _, List.dropWhile_cons_of_neg hslash, by decide⟩
  | blockComment => exact ⟨'/', _, List.dropWhile_cons_of_neg hslash, by decide⟩

/-- A filler text that ends a line is barren, if no comment mentions the owner. -/
theorem barren_of_isFillerText (hproper : pattern.IsProper) (h : IsFillerText text)
    (hlast : text.EndsLine) (hbefore : atLineStart = true → Text.inWord before = false)
    (hnone : pattern.Unmentioned before text) : pattern.Barren atLineStart text := by
  induction h generalizing before atLineStart with
  | nil => exact trivial
  | @filler c rest hc hrest ih =>
      have hends : rest.EndsLine := @Text.EndsLine.of_append [c] rest hlast
      refine ⟨fun _ => ?_, ih hends ?_ hnone.2⟩
      · obtain ⟨d, others, hdrop, hd⟩ := exists_dropWhile_of_isFillerText (.filler hc hrest)
          (hlast.resolve_left (List.cons_ne_nil _ _))
        exact match?_append_eq_none hproper hdrop hd
      · intro hnewline
        rw [eq_of_beq hnewline]
        decide
  | @lineComment inner rest hinner _ ih =>
      have hline : '\n' ∉ "//".toList ++ inner := by
        intro hmem
        rcases List.mem_append.mp hmem with hmark | hrest
        · exact absurd hmark (by decide)
        · exact hinner hrest
      have hsplit : "//".toList ++ inner ++ '\n' :: rest =
          ("//".toList ++ inner ++ ['\n']) ++ rest := by simp
      rw [hsplit] at hlast hnone ⊢
      have hfirst : pattern.Barren atLineStart ("//".toList ++ inner ++ ['\n']) :=
        barren_line hproper hline rfl (by decide)
      apply hfirst.append
      apply ih hlast.of_append _ hnone.of_append
      intro _
      rw [List.getLast?_concat, Option.some_or]
      decide
  | @blockComment inner rest _ _ ih =>
      have hclose : ("/*".toList ++ inner ++ "*/".toList).getLast? = some '/' := by
        rw [List.getLast?_append]
        rfl
      have hstop : pattern.isResultChar '/' = false :=
        isResultChar_eq_false (by decide) (by decide) (by decide)
      apply (barren_of_unmentioned hproper hclose hstop hbefore hnone.left).append
      apply ih hlast.of_append _ hnone.of_append
      intro hstart
      rw [lineStartsBehind, hclose] at hstart
      cases hstart

/-- A line in front of the definitions begins, blanks apart, with nothing that opens a signature. -/
theorem exists_dropWhile_of_isLeadLine {line : Text} (h : IsLeadLine line) :
    ∃ c rest, (line ++ ['\n']).dropWhile isLineBlank = c :: rest ∧ opens c = false := by
  rw [List.dropWhile_append]
  cases hdrop : line.dropWhile isLineBlank with
  | nil => exact ⟨'\n', [], rfl, by decide⟩
  | cons c rest =>
      refine ⟨c, rest ++ ['\n'], rfl, ?_⟩
      cases hblank : isBlank c with
      | true =>
          apply opens_of_isFiller
          rw [isFiller, hblank, Bool.true_or]
      | false =>
          have htrim : line.trimStart = c :: rest := by
            have hblanks : ∀ d ∈ line.takeWhile isLineBlank, isBlank d = true := fun d hd =>
              isBlank_of_isLineBlank (List.mem_takeWhile_imp hd)
            rw [Text.trimStart, ← List.takeWhile_append_dropWhile (p := isLineBlank) (l := line),
              hdrop]
            exact Text.dropWhile_run hblanks hblank
          have hremark := h.remark
          rw [htrim] at hremark
          rcases hremark with hnil | ⟨tail, htail⟩ | ⟨tail, htail⟩
          · cases hnil
          · obtain ⟨rfl, -⟩ := List.cons.inj htail
            decide
          · obtain ⟨rfl, -⟩ := List.cons.inj htail
            decide

theorem barren_closeLines (hproper : pattern.IsProper) {lines : List Text}
    (h : ∀ line ∈ lines, IsLeadLine line) :
    pattern.Barren true (Aggregator.closeLines lines) ∧
      lineStartsBehind true (Aggregator.closeLines lines) = true := by
  induction lines with
  | nil => exact ⟨trivial, rfl⟩
  | cons line rest ih =>
      have hline := h line List.mem_cons_self
      obtain ⟨hbarren, hbehind⟩ := ih fun other hmem => h other (List.mem_cons_of_mem _ hmem)
      obtain ⟨c, others, hdrop, hc⟩ := exists_dropWhile_of_isLeadLine hline
      have hstart : lineStartsBehind true (line ++ ['\n']) = true := by
        rw [lineStartsBehind, List.getLast?_concat]
        rfl
      have hsplit : Aggregator.closeLines (line :: rest) =
          (line ++ ['\n']) ++ Aggregator.closeLines rest := rfl
      rw [hsplit]
      refine ⟨(barren_line hproper hline.single hdrop hc).append ?_, ?_⟩
      · rw [hstart]
        exact hbarren
      · rw [lineStartsBehind_append, hstart]
        exact hbehind

end Signature.Pattern

end MemberSplit
