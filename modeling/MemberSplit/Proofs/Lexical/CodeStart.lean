import MemberSplit.Proofs.Lexical.FirstCode

/-!
# Where code begins

In front of the first code of a text there are only white space and comments that have ended. Main
statement: code is found at the place where this is so, and none is found exactly in a text of white
space and comments, of which the last one may lack its end.
-/

namespace MemberSplit.Lexical

/-- The text is white space and comments. The last comment may lack its end: one that two slashes
open, or a block comment that is never closed. -/
def IsOnlyFiller (text : Text) : Prop :=
  ∃ closed behind, text = closed ++ behind ∧ IsFillerText closed ∧
    (behind = [] ∨ IsOpenLine behind ∨ IsOpenBlock behind)

/-- The offset lies between two characters. In front of it there are white space and comments that
have ended, and behind it stands code. -/
def CodeBeginsAt (text : Text) (offset : Nat) : Prop :=
  ∃ front behind, text = front ++ behind ∧ front.byteLength = offset ∧ IsFillerText front ∧
    BeginsWithCode behind

variable {text : Text} {offset : Nat}

/-- What is found in a text is decided behind the white space and the closed comments at its
start. -/
theorem firstCode?_append {front : Text} (hfront : IsFillerText front) (behind : Text) :
    firstCode? (front ++ behind) = firstCodeFrom? (.code false) front.byteLength behind := by
  rw [firstCode?, Context.start, firstCodeFrom?_append hfront, Nat.zero_add]

theorem IsOnlyFiller.firstCode?_eq_none (h : IsOnlyFiller text) : firstCode? text = none := by
  obtain ⟨closed, behind, rfl, hclosed, hbehind⟩ := h
  rw [firstCode?_append hclosed]
  rcases hbehind with rfl | hline | hblock
  · rfl
  · exact hline.firstCodeFrom?_eq_none _
  · exact hblock.firstCodeFrom?_eq_none _

theorem CodeBeginsAt.firstCode?_eq_some (h : CodeBeginsAt text offset) :
    firstCode? text = some offset := by
  obtain ⟨front, behind, rfl, rfl, hfront, hcode⟩ := h
  rw [firstCode?_append hfront]
  exact hcode.firstCodeFrom?_eq_some _

/-- A text is white space and comments, or code begins in it. -/
theorem isOnlyFiller_or_codeBeginsAt (text : Text) :
    IsOnlyFiller text ∨ ∃ offset, CodeBeginsAt text offset := by
  obtain ⟨closed, behind, htext, hclosed, hnil | hline | hblock | hcode⟩ := exists_remainder text
  · exact .inl ⟨closed, behind, htext, hclosed, .inl hnil⟩
  · exact .inl ⟨closed, behind, htext, hclosed, .inr (.inl hline)⟩
  · exact .inl ⟨closed, behind, htext, hclosed, .inr (.inr hblock)⟩
  · exact .inr ⟨closed.byteLength, closed, behind, htext, rfl, hclosed, hcode⟩

/-- No code is found exactly in a text of white space and comments, and code is found exactly where
it begins. -/
theorem firstCode?_isExact (text : Text) :
    (firstCode? text = none ↔ IsOnlyFiller text) ∧
      ∀ offset, firstCode? text = some offset ↔ CodeBeginsAt text offset := by
  rcases isOnlyFiller_or_codeBeginsAt text with hfiller | ⟨place, hcode⟩
  · have hnone := hfiller.firstCode?_eq_none
    refine ⟨iff_of_true hnone hfiller, fun offset => ⟨fun hsome => ?_, fun h => ?_⟩⟩
    · rw [hnone] at hsome
      cases hsome
    · exact h.firstCode?_eq_some
  · have hsome := hcode.firstCode?_eq_some
    refine ⟨⟨fun hnone => ?_, fun h => h.firstCode?_eq_none⟩, fun offset => ⟨fun hfound => ?_,
      fun h => h.firstCode?_eq_some⟩⟩
    · rw [hnone] at hsome
      cases hsome
    · rw [hsome] at hfound
      exact Option.some.inj hfound ▸ hcode

-- The slash of the opening mark does not close the comment, and a star behind two slashes opens
-- none.
example : firstCode? "/*/ */ //*\n x" = some 12 := by decide

end MemberSplit.Lexical
