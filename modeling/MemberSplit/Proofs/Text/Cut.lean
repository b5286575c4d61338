import MemberSplit.Text.Basic

/-!
# Cutting one text in two ways

Offsets count bytes, and no character is empty, so an offset at which a text can be cut says where
the cut is. Two cuts of one text are therefore in order: the part between them is a text too.
-/

namespace MemberSplit.Text

@[simp] theorem byteLength_nil : byteLength [] = 0 := rfl

theorem byteLength_eq_zero_iff {text : Text} : byteLength text = 0 ↔ text = [] := by
  cases text with
  | nil => simp
  | cons c rest =>
      have hpos := Char.utf8Size_pos c
      simp only [byteLength, reduceCtorEq, iff_false]
      omega

/-- Of two cuts of a text, the later one is some way behind the earlier one. -/
theorem exists_between {before after before' after' : Text}
    (htext : before ++ after = before' ++ after')
    (hlength : byteLength before ≤ byteLength before') :
    ∃ between, before' = before ++ between ∧ after = between ++ after' := by
  obtain ⟨between, hbefore, hafter⟩ | ⟨between, hbefore, hafter⟩ :=
    List.append_eq_append_iff.mp htext
  · exact ⟨between, hbefore, hafter⟩
  · -- The other order leaves no room between the cuts.
    rw [hbefore, byteLength_append] at hlength
    have hempty : between = [] := byteLength_eq_zero_iff.mp (by omega)
    subst hempty
    exact ⟨[], by simpa using hbefore.symm, by simpa using hafter.symm⟩

/-- Two cuts of a text at one offset are the same. -/
theorem append_inj {before after before' after' : Text}
    (htext : before ++ after = before' ++ after')
    (hlength : byteLength before = byteLength before') : before = before' ∧ after = after' := by
  obtain ⟨between, rfl, rfl⟩ := exists_between htext (Nat.le_of_eq hlength)
  rw [byteLength_append] at hlength
  obtain rfl : between = [] := byteLength_eq_zero_iff.mp (by omega)
  exact ⟨(List.append_nil _).symm, rfl⟩

/-- A character of a joined text stands in the first part or in the second one. -/
theorem exists_of_append_eq_append_cons {first second before behind : Text} {c : Char}
    (h : first ++ second = before ++ c :: behind) :
    (∃ rest, first = before ++ c :: rest ∧ behind = rest ++ second) ∨
      ∃ before', before = first ++ before' ∧ second = before' ++ c :: behind := by
  obtain ⟨before', hbefore, hsecond⟩ | ⟨more, hfirst, hmore⟩ := List.append_eq_append_iff.mp h
  · exact .inr ⟨before', hbefore, hsecond⟩
  · cases more with
    | nil => exact .inr ⟨[], by simp [hfirst], hmore.symm⟩
    | cons d rest =>
        obtain ⟨rfl, rfl⟩ := List.cons.inj hmore
        exact .inl ⟨rest, hfirst, rfl⟩

theorem exists_append_dropBytes (text : Text) (count : Nat) :
    ∃ front, text = front ++ text.dropBytes count := by
  induction text generalizing count with
  | nil => exact ⟨[], rfl⟩
  | cons c rest ih =>
      rw [dropBytes]
      split
      next =>
        obtain ⟨front, hfront⟩ := ih (count - c.utf8Size)
        exact ⟨c :: front, congrArg (c :: ·) hfront⟩
      next => exact ⟨[], rfl⟩

/-- What is cut off by an offset ends at the offset, or within the next character. -/
theorem exists_takeBytes_append {text : Text} {offset : Nat} (h : offset ≤ text.byteLength) :
    ∃ back, text = text.takeBytes offset ++ back ∧ (text.takeBytes offset).byteLength ≤ offset ∧
      ∀ c ∈ back.head?, offset < (text.takeBytes offset).byteLength + c.utf8Size := by
  induction text generalizing offset with
  | nil => exact ⟨[], rfl, Nat.zero_le _, by simp⟩
  | cons c rest ih =>
      rw [byteLength] at h
      by_cases hfits : c.utf8Size ≤ offset
      · have hshort : offset - c.utf8Size ≤ byteLength rest := by omega
        obtain ⟨back, hrest, hle, hnext⟩ := ih hshort
        rw [takeBytes, if_pos hfits, byteLength]
        refine ⟨back, congrArg (c :: ·) hrest, by omega, fun d hd => ?_⟩
        have := hnext d hd
        omega
      · rw [takeBytes, if_neg hfits]
        refine ⟨c :: rest, rfl, Nat.zero_le _, fun d hd => ?_⟩
        obtain rfl : c = d := by simpa using hd
        simp only [byteLength_nil]
        omega

/-- The slice between two cuts of a text is the text between them. -/
theorem slice_eq_between {text before between : Text} (after : Text) {start stop : Nat}
    (htext : text = before ++ (between ++ after)) (hstart : byteLength before = start)
    (hstop : byteLength (before ++ between) = stop) : slice text start stop = between := by
  subst hstart hstop
  rw [htext, slice_append]

/-- Whether the offset lies between two characters, or at an end of the text. -/
def IsCut (text : Text) (offset : Nat) : Prop :=
  ∃ before after, text = before ++ after ∧ before.byteLength = offset

/-- What stands between two cuts of a text, the first of which is known. -/
theorem IsCut.exists_slice {before after : Text} {offset : Nat}
    (h : (before ++ after).IsCut offset) (hle : before.byteLength ≤ offset) :
    ∃ between behind, after = between ++ behind ∧
      before.byteLength + between.byteLength = offset ∧
        (before ++ after).slice before.byteLength offset = between := by
  obtain ⟨front, behind, htext, rfl⟩ := h
  obtain ⟨between, rfl, rfl⟩ := exists_between htext hle
  exact ⟨between, behind, rfl, (byteLength_append _ _).symm, slice_append _ _ _⟩

end MemberSplit.Text
