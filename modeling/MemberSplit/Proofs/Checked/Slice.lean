import MemberSplit.Proofs.Text.Boundary
import MemberSplit.Proofs.Text.LineLookup

/-!
# When a check succeeds

A slice can be cut exactly where the text is made up of something, the slice and something else. A
line that an offset lies on can be looked up, and it can be cut out.
-/

namespace MemberSplit.Checked

variable {text : Text} {start stop line : Nat}

theorem ok_bind {α β : Type} (value : α) (next : α → Except Fault β) :
    (Except.ok value >>= next) = next value :=
  rfl

/-- The checks of a slice tell whether there is such a part of the text. -/
theorem slice_eq_ok_iff {part : Text} : slice text start stop = .ok part ↔
    ∃ before after, text = before ++ (part ++ after) ∧ before.byteLength = start ∧
      (before ++ part).byteLength = stop := by
  simp only [slice]
  constructor
  · intro h
    split at h
    next hchecks =>
      obtain ⟨horder, -, hstart, hstop⟩ := hchecks
      rw [Utf8.isBoundary_encode_iff] at hstart hstop
      obtain ⟨before, after, rfl, rfl⟩ := hstart
      obtain ⟨between, behind, rfl, hlength, hslice⟩ := hstop.exists_slice horder
      obtain rfl : between = part := hslice.symm.trans (Except.ok.inj h)
      exact ⟨before, behind, rfl, rfl, by rw [Text.byteLength_append, hlength]⟩
    next => cases h
  · rintro ⟨before, after, htext, rfl, rfl⟩
    have hstart : text.IsCut before.byteLength := ⟨before, part ++ after, htext, rfl⟩
    have hstop : text.IsCut (before ++ part).byteLength :=
      ⟨before ++ part, after, by rw [htext, List.append_assoc], rfl⟩
    have hlength : (before ++ part).byteLength ≤ (Utf8.encode text).length := by
      rw [Utf8.length_encode, htext, ← List.append_assoc, Text.byteLength_append _ after]
      exact Nat.le_add_right _ _
    have horder : before.byteLength ≤ (before ++ part).byteLength := by
      rw [Text.byteLength_append]
      exact Nat.le_add_right _ _
    rw [← Utf8.isBoundary_encode_iff] at hstart hstop
    rw [if_pos ⟨horder, hlength, hstart, hstop⟩]
    exact congrArg Except.ok (Text.slice_eq_between after htext rfl rfl)

-- The second offset lies within the first character.
example : slice "éa" 0 1 = .error (.slice 0 1) ∧ slice "éa" 0 2 = .ok "é" := by decide

/-- Between two cuts of a text there is a slice. -/
theorem slice_of_isCut (hstart : text.IsCut start) (hstop : text.IsCut stop) (h : start ≤ stop) :
    slice text start stop = .ok (text.slice start stop) := by
  obtain ⟨before, after, rfl, rfl⟩ := hstart
  obtain ⟨between, behind, rfl, hlength, hslice⟩ := hstop.exists_slice h
  rw [hslice]
  exact slice_eq_ok_iff.mpr ⟨before, behind, rfl, rfl, by rw [Text.byteLength_append, hlength]⟩

theorem lineSpan_eq_ok (hfirst : 1 ≤ line) (hlast : line ≤ 1 + text.count '\n') :
    lineSpan text line = .ok (text.lineSpan line) := by
  rw [← Text.length_lineStarts] at hlast
  obtain ⟨index, rfl⟩ := Nat.exists_eq_add_of_le' hfirst
  have hindex : index < text.lineStarts.length := by omega
  have hstart : text.lineStarts.getD index 0 = text.lineStarts[index] :=
    (List.getElem_eq_getD 0).symm
  simp only [lineSpan, pred, ok_bind, Text.lineSpan, Nat.add_sub_cancel, hstart,
    List.getElem?_eq_getElem hindex]
  cases hnext : text.lineStarts[index + 1]? with
  | none => rfl
  | some next =>
      obtain ⟨hlater, rfl⟩ := List.getElem?_eq_some_iff.mp hnext
      -- The starts are in ascending order, so no line but the first one starts at zero.
      have hpositive := List.pairwise_iff_getElem.mp (Text.pairwise_lineStarts text) index
        (index + 1) hindex hlater (Nat.lt_succ_self index)
      obtain ⟨place, hplace⟩ := Nat.exists_eq_add_of_lt hpositive
      simp only [hplace, ok_bind, Nat.add_sub_cancel]

end MemberSplit.Checked
