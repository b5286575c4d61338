import MemberSplit.Aggregator.Basic
import MemberSplit.Aggregator.Gap
import MemberSplit.Proofs.Extraction.Spans

/-!
# What an aggregator leaves out

An aggregator keeps the lead of its input as it is, and nothing of what stands behind it. The gaps
that are looked at are the texts between the definitions, so a source without orphaned code has no
code in any of them.
-/

namespace MemberSplit

namespace Gap

theorem isSome_diagnostic?_read (source : Text) (start stop : Nat) (carries : Bool) :
    (read source start stop carries).diagnostic?.isSome =
      (Lexical.firstCode? (source.slice start stop)).isSome := by
  cases hcode : Lexical.firstCode? (source.slice start stop) with
  | some offset => simp [read, diagnostic?, hcode]
  | none =>
      -- Without code the content is blank, carried or dropped, none of which is warned about.
      cases carries with
      | true => simp [read, diagnostic?, hcode]
      | false =>
          cases hblank : List.isEmpty (source.slice start stop).trim <;>
            simp [read, diagnostic?, hcode, hblank]

/-- A gap is warned about exactly if there is code in its text. -/
theorem map_isSome_diagnostic? (source : Text) (definitions : List Definition) :
    (list source definitions).map (fun gap => gap.diagnostic?.isSome) =
      (Definition.gapTexts source definitions).map fun gap => (Lexical.firstCode? gap).isSome := by
  fun_induction list source definitions with
  | case1 => rfl
  | case2 last => simp [Definition.gapTexts, isSome_diagnostic?_read]
  | case3 definition next rest ih =>
      rw [Definition.gapTexts, List.map_cons, List.map_cons, isSome_diagnostic?_read, ih]

theorem firstCode?_eq_none_of_mem_gapTexts {source : Text} {definitions : List Definition}
    (horphaned : (list source definitions).countP (fun gap => gap.diagnostic?.isSome) = 0)
    {gap : Text} (hmem : gap ∈ Definition.gapTexts source definitions) :
    Lexical.firstCode? gap = none := by
  have hsome : (Lexical.firstCode? gap).isSome ∈
      (list source definitions).map fun gap => gap.diagnostic?.isSome := by
    rw [map_isSome_diagnostic?]
    exact List.mem_map_of_mem hmem
  obtain ⟨read, hread, heq⟩ := List.mem_map.mp hsome
  have hnone := List.countP_eq_zero.mp horphaned read hread
  rw [heq] at hnone
  simpa using hnone

end Gap

namespace Aggregator

theorem closeLines_endsLine (lines : List Text) : (closeLines lines).EndsLine := by
  induction lines with
  | nil => exact .inl rfl
  | cons line rest ih =>
      refine .inr ?_
      simp only [closeLines, List.flatMap_cons] at ih ⊢
      rcases ih with hempty | hlast
      · simp [hempty]
      · rw [List.getLast?_append, hlast]
        rfl

/-- Lines without a character make up a text without it. -/
theorem not_mem_closeLines {c : Char} {lines : List Text} (hc : c ≠ '\n')
    (h : ∀ line ∈ lines, c ∉ line) : c ∉ closeLines lines := by
  intro hmem
  obtain ⟨line, hline, hmem⟩ := List.mem_flatMap.mp hmem
  rcases List.mem_append.mp hmem with hinside | hend
  · exact h line hline hinside
  · exact hc (List.mem_singleton.mp hend)

/-- Behind a lead that ends a line the references follow at once. -/
theorem text_eq {aggregator : Aggregator} (hlead : aggregator.lead.EndsLine) :
    aggregator.text = closeLines aggregator.banner ++ aggregator.lead ++
      closeLines aggregator.references := by
  have hopening : (closeLines aggregator.banner ++ aggregator.lead).EndsLine := by
    rcases hlead with hempty | hlast
    · rw [hempty, List.append_nil]
      exact closeLines_endsLine _
    · refine .inr ?_
      rw [List.getLast?_append, hlast]
      rfl
  unfold text
  rcases hopening with hempty | hlast
  · simp [hempty]
  · simp [hlast]

end Aggregator

end MemberSplit
