import Mathlib.Algebra.Group.Nat.Defs
import MemberSplit.Proofs.Checked.Slice
import MemberSplit.Proofs.Text.Brackets

/-!
# Splitting outside brackets is exact

A text is cut at each separator that stands at depth zero and nowhere else, so the pieces have all
its characters and are not cut again. Main statement: this is so, and if the text has less than
`2 ^ 31` bytes, cutting it by offsets with a depth of 32 bits gives the same pieces.
-/

namespace MemberSplit.Text

variable {separator : Char} {depth : Int} {text : Text} {pieces : List Text} {offset : Nat}

/-- Offsets of the separators between the pieces, the first of which begins at `start`. -/
def cutOffsets (separator : Char) : (start : Nat) → List Text → List Nat
  | _, [] => []
  | _, [_] => []
  | start, piece :: next :: others =>
    let cut := start + piece.byteLength
    cut :: cutOffsets separator (cut + separator.utf8Size) (next :: others)

theorem cutOffsets_consPiece (separator : Char) (start : Nat) (c : Char) (hne : pieces ≠ []) :
    cutOffsets separator start (consPiece c pieces) =
      cutOffsets separator (start + c.utf8Size) pieces := by
  obtain ⟨piece, others, rfl⟩ := List.exists_cons_of_ne_nil hne
  cases others with
  | nil => rfl
  | cons next others => simp only [consPiece, cutOffsets, byteLength, Nat.add_assoc]

/-- The first character is the one that is looked for, or it stands in front of it. -/
theorem exists_cons_eq_append_cons_iff {c : Char} {rest : Text} {P : Text → Prop} :
    (∃ before after, c :: rest = before ++ separator :: after ∧ P before) ↔
      c = separator ∧ P [] ∨ ∃ before after, rest = before ++ separator :: after ∧
        P (c :: before) := by
  constructor
  · rintro ⟨before, after, htext, h⟩
    cases before with
    | nil => exact .inl ⟨(List.cons.inj htext).1, h⟩
    | cons d others =>
        obtain ⟨rfl, hrest⟩ := List.cons.inj htext
        exact .inr ⟨others, after, hrest, h⟩
  · rintro (⟨rfl, h⟩ | ⟨before, after, rfl, h⟩)
    · exact ⟨[], rest, rfl, h⟩
    · exact ⟨c :: before, after, rfl, h⟩

/-- The cuts are the separators at depth zero. -/
theorem mem_cutOffsets_splitOutsideFrom_iff {start : Nat} :
    offset ∈ cutOffsets separator start (splitOutsideFrom separator depth text) ↔
      ∃ before after, text = before ++ separator :: after ∧ start + before.byteLength = offset ∧
        bracketDelta separator = 0 ∧ depth + bracketDepth before = 0 := by
  induction text generalizing depth start with
  | nil => simp [splitOutsideFrom, cutOffsets]
  | cons c rest ih =>
      rw [exists_cons_eq_append_cons_iff]
      unfold splitOutsideFrom
      simp only
      split
      next hcut =>
        obtain ⟨⟨rfl, hdelta⟩, rfl⟩ : (c = separator ∧ bracketDelta c = 0) ∧ depth = 0 := by
          simpa using hcut
        obtain ⟨piece, others, hrest⟩ := exists_cons_of_splitOutsideFrom c 0 rest
        rw [hrest, cutOffsets, ← hrest, List.mem_cons]
        refine or_congr ?_ (ih.trans ?_)
        · simp [hdelta, eq_comm]
        · simp only [byteLength, bracketDepth_cons, hdelta, Nat.add_zero, Nat.add_assoc,
            Int.zero_add]
      next hnot =>
        have hhere : ¬(c = separator ∧ bracketDelta separator = 0 ∧ depth = 0) := by
          rintro ⟨rfl, hdelta, hdepth⟩
          simp [hdelta, hdepth] at hnot
        obtain ⟨piece, others, hrest⟩ :=
          exists_cons_of_splitOutsideFrom separator (depth + bracketDelta c) rest
        rw [cutOffsets_consPiece _ _ _ (by simp [hrest]), ih]
        simp only [byteLength, bracketDepth_cons, Nat.add_assoc, Int.add_assoc]
        refine (or_iff_right ?_).symm
        rintro ⟨hc, -, hdelta, hdepth⟩
        exact hhere ⟨hc, hdelta, by simpa using hdepth⟩

/-- Pieces that are cut outside brackets start at depth zero, and so none of them is cut again. -/
theorem AreCut.forall_uncut (h : AreCut separator 0 pieces) :
    ∀ piece ∈ pieces, Uncut separator 0 piece := by
  induction pieces with
  | nil => exact h.elim
  | cons piece rest ih =>
      cases rest with
      | nil => exact List.forall_mem_singleton.mpr h
      | cons next others =>
          obtain ⟨hpiece, -, hothers⟩ := h
          exact List.forall_mem_cons.mpr ⟨hpiece, ih hothers⟩

end MemberSplit.Text

namespace MemberSplit.Checked

variable {separator : Char} {depth : Int} {text done current rest : Text}

theorem int32_eq_ok {count : Int} (h : count.natAbs < 2 ^ 31) : int32 count = .ok count :=
  if_pos (by omega)

theorem natAbs_bracketDelta_le (c : Char) : (Text.bracketDelta c).natAbs ≤ 1 := by
  unfold Text.bracketDelta
  split
  · decide
  · split <;> decide

/-- The characters of the piece that is being read lie between the two offsets. The depth stays in
its range, for it changes by one with a character at most. -/
theorem splitOutsideFrom_eq_ok (htext : text = done ++ (current ++ rest))
    (hdepth : depth.natAbs + rest.byteLength < 2 ^ 31) :
    splitOutsideFrom text separator depth done.byteLength (done ++ current).byteLength rest =
      .ok (current.foldr Text.consPiece (Text.splitOutsideFrom separator depth rest)) := by
  induction rest generalizing done current depth with
  | nil =>
      have hlast : slice text done.byteLength text.byteLength = .ok current :=
        slice_eq_ok_iff.mpr ⟨done, [], htext, rfl, by rw [htext, List.append_nil]⟩
      rw [splitOutsideFrom, hlast, ok_bind, Text.splitOutsideFrom, Text.foldr_consPiece,
        List.append_nil]
      rfl
  | cons c others ih =>
      have hsize := Char.utf8Size_pos c
      have hdelta := natAbs_bracketDelta_le c
      have hplace : (done ++ current).byteLength + c.utf8Size =
          (done ++ (current ++ [c])).byteLength := by
        simp only [Text.byteLength_append, Text.byteLength, Nat.add_zero, Nat.add_assoc]
      have hlonger : text = done ++ ((current ++ [c]) ++ others) := by simp [htext]
      have hcons : ∀ pieces, current.foldr Text.consPiece (Text.consPiece c pieces) =
          (current ++ [c]).foldr Text.consPiece pieces := by simp
      rw [Text.byteLength] at hdepth
      unfold splitOutsideFrom Text.splitOutsideFrom
      simp only [hplace]
      split
      next hbracket =>
        have hcount : int32 (depth + Text.bracketDelta c) = .ok (depth + Text.bracketDelta c) :=
          int32_eq_ok (by omega)
        rw [hcount, ok_bind, ih hlonger (by omega), if_neg (by simp [hbracket]), hcons]
      next hplain =>
        have hzero : Text.bracketDelta c = 0 := by simpa using hplain
        rw [hzero, Int.add_zero]
        split
        next hcut =>
          obtain ⟨rfl, rfl⟩ : c = separator ∧ depth = 0 := by simpa using hcut
          have hpiece : slice text done.byteLength (done ++ current).byteLength = .ok current :=
            slice_eq_ok_iff.mpr ⟨done, c :: others, htext, rfl, rfl⟩
          have hbehind : splitOutsideFrom text c 0 (done ++ (current ++ [c])).byteLength
              (done ++ (current ++ [c]) ++ []).byteLength others =
                .ok (Text.splitOutsideFrom c 0 others) :=
            ih (by simp [htext]) (by omega)
          rw [List.append_nil] at hbehind
          rw [hpiece, ok_bind, hbehind, ok_bind, if_pos (by simp), Text.foldr_consPiece,
            List.append_nil]
          rfl
        next hnot => rw [ih hlonger (by omega), if_neg (by simpa using hnot), hcons]

end MemberSplit.Checked

namespace MemberSplit.Text

/-- Some pieces are those of a text between its separators outside brackets. -/
structure IsSplitOutside (text : Text) (separator : Char) (pieces : List Text) : Prop where
  joined : joinWith [separator] pieces = text
  /-- The cuts are the separators in front of which as many brackets are opened as are closed. A
  bracket is no separator. -/
  cuts : ∀ offset, offset ∈ cutOffsets separator 0 pieces ↔
    ∃ before after, text = before ++ separator :: after ∧ before.byteLength = offset ∧
      bracketDelta separator = 0 ∧ bracketDepth before = 0
  /-- No piece is cut again. -/
  uncut : ∀ piece ∈ pieces, piece.splitOutside separator = [piece]

theorem isSplitOutside_splitOutside (text : Text) (separator : Char) :
    IsSplitOutside text separator (text.splitOutside separator) where
  joined := joinWith_splitOutsideFrom separator 0 text
  cuts := fun offset => by
    rw [splitOutside, mem_cutOffsets_splitOutsideFrom_iff]
    simp only [Nat.zero_add, Int.zero_add]
  uncut := fun piece hmem =>
    splitOutsideFrom_of_uncut ((areCut_splitOutsideFrom separator 0 text).forall_uncut piece hmem)

/-- A text of less than `2 ^ 31` bytes is cut by its offsets, without any fault, into the pieces
between its separators outside brackets. -/
theorem splitOutside_isExact {text : Text} (h : text.byteLength < 2 ^ 31) (separator : Char) :
    Checked.splitOutside text separator = .ok (text.splitOutside separator) ∧
      IsSplitOutside text separator (text.splitOutside separator) := by
  refine ⟨?_, isSplitOutside_splitOutside text separator⟩
  have hstart : text = [] ++ ([] ++ text) := rfl
  exact Checked.splitOutsideFrom_eq_ok hstart (by simpa using h)

-- The arrow leaves the depth below zero, and then the first parenthesis brings it back to zero.
theorem splitOutside_isExact_arrow :
    let text : Text := "std::map<int, int>& m, a->b, f(x, y)"
    text.byteLength < 2 ^ 31 ∧
      Checked.splitOutside text ',' =
        .ok ["std::map<int, int>& m", " a->b, f(x", " y)"] ∧
      IsSplitOutside text ',' ["std::map<int, int>& m", " a->b, f(x", " y)"] := by
  intro text
  have hlength : text.byteLength < 2 ^ 31 := by decide
  have hpieces : text.splitOutside ',' =
      ["std::map<int, int>& m".toList, " a->b, f(x".toList, " y)".toList] := by decide
  have hexact := splitOutside_isExact hlength ','
  rw [hpieces] at hexact
  exact ⟨hlength, hexact⟩

end MemberSplit.Text
