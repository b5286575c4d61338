import Mathlib.Algebra.Ring.Int.Defs
import Mathlib.Data.List.Basic
import MemberSplit.Text.Brackets

/-!
# Cuts outside brackets

Splitting outside brackets is undone by joining. The other way round, pieces can be told apart in
what they are joined to, if no piece has a separator at depth zero and every piece but the last one
leaves no bracket open.
-/

namespace MemberSplit.Text

/-- The change of depth that a text makes. -/
def bracketDepth (text : Text) : Int :=
  (text.map bracketDelta).sum

@[simp] theorem bracketDepth_nil : bracketDepth [] = 0 := rfl

@[simp] theorem bracketDepth_cons (c : Char) (rest : Text) :
    bracketDepth (c :: rest) = bracketDelta c + bracketDepth rest := by
  simp [bracketDepth]

theorem bracketDepth_append (text rest : Text) :
    bracketDepth (text ++ rest) = bracketDepth text + bracketDepth rest := by
  simp [bracketDepth]

/-- No separator stands at depth zero, where `depth` brackets are open before the text. -/
def Uncut (separator : Char) : (depth : Int) → Text → Prop
  | _, [] => True
  | depth, c :: rest =>
    ¬(c = separator ∧ bracketDelta c = 0 ∧ depth = 0) ∧
      Uncut separator (depth + bracketDelta c) rest

instance decidableUncut (separator : Char) :
    ∀ (depth : Int) (text : Text), Decidable (Uncut separator depth text)
  | _, [] => .isTrue trivial
  | depth, c :: rest =>
    have := decidableUncut separator (depth + bracketDelta c) rest
    inferInstanceAs (Decidable (¬(c = separator ∧ bracketDelta c = 0 ∧ depth = 0) ∧
      Uncut separator (depth + bracketDelta c) rest))

/-- The pieces are uncut, and each but the last one ends at depth zero. -/
def AreCut (separator : Char) : (depth : Int) → List Text → Prop
  | _, [] => False
  | depth, [last] => Uncut separator depth last
  | depth, piece :: next :: rest =>
    Uncut separator depth piece ∧ depth + bracketDepth piece = 0 ∧
      AreCut separator 0 (next :: rest)

/-- A character on which the cuts at a separator depend. -/
def isCutMark (separator c : Char) : Bool :=
  bracketDelta c ≠ 0 || c == separator

variable {separator : Char} {depth : Int} {text piece : Text} {pieces : List Text}

theorem mem_of_bracketDelta_ne_zero {c : Char} (h : bracketDelta c ≠ 0) : c ∈ "()<>[]".toList := by
  unfold bracketDelta at h
  split at h
  next hopen =>
    simp only [Bool.or_eq_true, decide_eq_true_eq] at hopen
    rcases hopen with (rfl | rfl) | rfl <;> decide
  next =>
    split at h
    next hclose =>
      simp only [Bool.or_eq_true, decide_eq_true_eq] at hclose
      rcases hclose with (rfl | rfl) | rfl <;> decide
    next => exact absurd rfl h

/-- A kind of character that has no brackets and does not have the separator does not matter for
the cuts. -/
theorem isCutMark_eq_false {p : Char → Bool} (hbrackets : ("()<>[]".toList.any p) = false)
    (hseparator : p separator = false) {c : Char} (hc : p c = true) :
    isCutMark separator c = false := by
  have hdelta : bracketDelta c = 0 := by
    by_contra hne
    have hany := List.any_eq_true.mpr ⟨c, mem_of_bracketDelta_ne_zero hne, hc⟩
    rw [hbrackets] at hany
    cases hany
  have hother : c ≠ separator := by
    rintro rfl
    rw [hseparator] at hc
    cases hc
  simp [isCutMark, hdelta, hother]

theorem bracketDelta_of_not_isCutMark {c : Char} (h : isCutMark separator c = false) :
    bracketDelta c = 0 := by
  by_contra hdelta
  simp [isCutMark, hdelta] at h

theorem bracketDepth_filter_isCutMark (separator : Char) (text : Text) :
    bracketDepth (text.filter (isCutMark separator)) = bracketDepth text := by
  induction text with
  | nil => rfl
  | cons c rest ih =>
      cases hc : isCutMark separator c with
      | true => rw [List.filter_cons_of_pos hc, bracketDepth_cons, ih, bracketDepth_cons]
      | false =>
          rw [List.filter_cons_of_neg (by simp [hc]), ih, bracketDepth_cons,
            bracketDelta_of_not_isCutMark hc, Int.zero_add]

theorem uncut_filter_isCutMark (separator : Char) (depth : Int) (text : Text) :
    Uncut separator depth (text.filter (isCutMark separator)) ↔ Uncut separator depth text := by
  induction text generalizing depth with
  | nil => rfl
  | cons c rest ih =>
      cases hc : isCutMark separator c with
      | true =>
          rw [List.filter_cons_of_pos hc]
          exact and_congr_right fun _ => ih _
      | false =>
          have hother : c ≠ separator := by
            rintro rfl
            simp [isCutMark] at hc
          rw [List.filter_cons_of_neg (by simp [hc]), ih]
          simp [Uncut, hother, bracketDelta_of_not_isCutMark hc]

theorem foldr_consPiece (text piece : Text) (pieces : List Text) :
    text.foldr consPiece (piece :: pieces) = (text ++ piece) :: pieces := by
  induction text with
  | nil => rfl
  | cons c rest ih => simp [ih, consPiece]

theorem uncut_append_iff {rest : Text} : Uncut separator depth (text ++ rest) ↔
    Uncut separator depth text ∧ Uncut separator (depth + bracketDepth text) rest := by
  induction text generalizing depth with
  | nil => simp [Uncut]
  | cons c others ih =>
      rw [List.cons_append, Uncut, Uncut, ih, bracketDepth_cons, and_assoc, Int.add_assoc]

theorem Uncut.of_append {rest : Text} (h : Uncut separator depth (text ++ rest)) :
    Uncut separator depth text :=
  (uncut_append_iff.mp h).1

theorem splitOutsideFrom_append (h : Uncut separator depth text) (rest : Text) :
    splitOutsideFrom separator depth (text ++ rest) =
      text.foldr consPiece (splitOutsideFrom separator (depth + bracketDepth text) rest) := by
  induction text generalizing depth with
  | nil => simp
  | cons c others ih =>
      obtain ⟨hc, hothers⟩ := h
      have hfalse : ¬(decide (c = separator) && decide (bracketDelta c = 0) &&
          decide (depth = 0)) = true := by
        simpa [and_assoc] using hc
      rw [List.cons_append, splitOutsideFrom, if_neg hfalse, ih hothers, bracketDepth_cons,
        List.foldr_cons, Int.add_assoc]

theorem splitOutsideFrom_of_uncut (h : Uncut separator depth text) :
    splitOutsideFrom separator depth text = [text] := by
  have hsplit := splitOutsideFrom_append h []
  rw [List.append_nil, splitOutsideFrom, foldr_consPiece, List.append_nil] at hsplit
  exact hsplit

theorem exists_cons_of_splitOutsideFrom (separator : Char) (depth : Int) (text : Text) :
    ∃ piece pieces, splitOutsideFrom separator depth text = piece :: pieces := by
  cases text with
  | nil => exact ⟨[], [], rfl⟩
  | cons c rest =>
      unfold splitOutsideFrom
      simp only
      split
      · exact ⟨_, _, rfl⟩
      · cases splitOutsideFrom separator (depth + bracketDelta c) rest with
        | nil => exact ⟨_, _, rfl⟩
        | cons piece pieces => exact ⟨_, _, rfl⟩

/-- Splitting finds pieces that are cut outside brackets only. -/
theorem areCut_splitOutsideFrom (separator : Char) (depth : Int) (text : Text) :
    AreCut separator depth (splitOutsideFrom separator depth text) := by
  induction text generalizing depth with
  | nil => exact trivial
  | cons c rest ih =>
      unfold splitOutsideFrom
      simp only
      split
      next hcut =>
        obtain ⟨⟨-, -⟩, rfl⟩ : (c = separator ∧ bracketDelta c = 0) ∧ depth = 0 := by
          simpa using hcut
        obtain ⟨piece, pieces, hrest⟩ := exists_cons_of_splitOutsideFrom separator 0 rest
        have hcut := ih 0
        rw [hrest] at hcut ⊢
        exact ⟨trivial, by simp, hcut⟩
      next hnot =>
        have hc : ¬(c = separator ∧ bracketDelta c = 0 ∧ depth = 0) := by
          simpa [and_assoc] using hnot
        obtain ⟨piece, pieces, hrest⟩ :=
          exists_cons_of_splitOutsideFrom separator (depth + bracketDelta c) rest
        have hcut := ih (depth + bracketDelta c)
        rw [hrest] at hcut ⊢
        cases pieces with
        | nil => exact ⟨hc, hcut⟩
        | cons next others =>
            obtain ⟨hpiece, hdepth, hothers⟩ := hcut
            refine ⟨⟨hc, hpiece⟩, ?_, hothers⟩
            rw [bracketDepth_cons, ← Int.add_assoc]
            exact hdepth

theorem joinWith_cons_cons (gap first next : Text) (rest : List Text) :
    joinWith gap (first :: next :: rest) = first ++ gap ++ joinWith gap (next :: rest) :=
  List.intercalate_cons_cons

theorem exists_joinWith_cons (gap first : Text) (rest : List Text) :
    ∃ tail, joinWith gap (first :: rest) = first ++ tail ∧ (tail = [] ∨ gap <+: tail) := by
  cases rest with
  | nil => exact ⟨[], by simp [joinWith], .inl rfl⟩
  | cons next others =>
      rw [joinWith_cons_cons, List.append_assoc]
      exact ⟨_, rfl, .inr (List.prefix_append gap _)⟩

theorem forall_mem_joinWith {p : Char → Prop} {gap : Text} {parts : List Text}
    (hgap : ∀ c ∈ gap, p c) (hparts : ∀ part ∈ parts, ∀ c ∈ part, p c) :
    ∀ c ∈ joinWith gap parts, p c := by
  induction parts with
  | nil => simp [joinWith]
  | cons first rest ih =>
      obtain ⟨hfirst, hrest⟩ := List.forall_mem_cons.mp hparts
      cases rest with
      | nil => simpa [joinWith] using hfirst
      | cons next others =>
          rw [joinWith_cons_cons]
          exact List.forall_mem_append.mpr ⟨List.forall_mem_append.mpr ⟨hfirst, hgap⟩, ih hrest⟩

/-- Joining undoes splitting. -/
theorem joinWith_splitOutsideFrom (separator : Char) (depth : Int) (text : Text) :
    joinWith [separator] (splitOutsideFrom separator depth text) = text := by
  induction text generalizing depth with
  | nil => rfl
  | cons c rest ih =>
      unfold splitOutsideFrom
      simp only
      split
      next hcut =>
        obtain ⟨⟨rfl, -⟩, rfl⟩ : (c = separator ∧ bracketDelta c = 0) ∧ depth = 0 := by
          simpa using hcut
        obtain ⟨piece, pieces, hrest⟩ := exists_cons_of_splitOutsideFrom c 0 rest
        have hjoin := ih 0
        rw [hrest] at hjoin ⊢
        rw [joinWith_cons_cons, hjoin]
        rfl
      next =>
        obtain ⟨piece, pieces, hrest⟩ :=
          exists_cons_of_splitOutsideFrom separator (depth + bracketDelta c) rest
        have hjoin := ih (depth + bracketDelta c)
        rw [hrest] at hjoin ⊢
        cases pieces with
        | nil =>
            obtain rfl : piece = rest := by simpa [joinWith] using hjoin
            simp [consPiece, joinWith]
        | cons next others =>
            rw [joinWith_cons_cons] at hjoin
            rw [consPiece, joinWith_cons_cons, List.cons_append, List.cons_append, hjoin]

/-- Splitting undoes joining, for pieces that are cut outside brackets only. -/
theorem splitOutsideFrom_joinWith (hseparator : bracketDelta separator = 0)
    (h : AreCut separator depth pieces) :
    splitOutsideFrom separator depth (joinWith [separator] pieces) = pieces := by
  induction pieces generalizing depth with
  | nil => exact h.elim
  | cons piece rest ih =>
      cases rest with
      | nil =>
          have hjoin : joinWith [separator] [piece] = piece := by simp [joinWith]
          rw [hjoin, splitOutsideFrom_of_uncut h]
      | cons next others =>
          obtain ⟨hpiece, hdepth, hothers⟩ := h
          have hrest := ih hothers
          rw [joinWith_cons_cons, List.append_assoc, splitOutsideFrom_append hpiece, hdepth,
            List.singleton_append, splitOutsideFrom, if_pos (by simp [hseparator]), hrest,
            foldr_consPiece, List.append_nil]

theorem areCut_of_forall (hne : pieces ≠ [])
    (h : ∀ piece ∈ pieces, Uncut separator 0 piece ∧ bracketDepth piece = 0) :
    AreCut separator 0 pieces := by
  induction pieces with
  | nil => exact absurd rfl hne
  | cons piece rest ih =>
      obtain ⟨⟨huncut, hdepth⟩, hrest⟩ := List.forall_mem_cons.mp h
      cases rest with
      | nil => exact huncut
      | cons next others => exact ⟨huncut, by simp [hdepth], ih (by simp) hrest⟩

/-- What keeps pieces uncut and does not change where they end keeps them apart. -/
theorem AreCut.map {f : Text → Text} (h : AreCut separator 0 pieces)
    (huncut : ∀ piece ∈ pieces, Uncut separator 0 piece → Uncut separator 0 (f piece))
    (hdepth : ∀ piece ∈ pieces, bracketDepth piece = 0 → bracketDepth (f piece) = 0) :
    AreCut separator 0 (pieces.map f) := by
  induction pieces with
  | nil => exact h.elim
  | cons piece rest ih =>
      cases rest with
      | nil => exact huncut piece List.mem_cons_self h
      | cons next others =>
          obtain ⟨hpiece, hend, hothers⟩ := h
          refine ⟨huncut piece List.mem_cons_self hpiece, ?_, ?_⟩
          · rw [Int.zero_add] at hend ⊢
            exact hdepth piece List.mem_cons_self hend
          · exact ih hothers (fun other hmem => huncut other (List.mem_cons_of_mem _ hmem))
              fun other hmem => hdepth other (List.mem_cons_of_mem _ hmem)

/-- The first piece of a text whose front has neither brackets nor the separator. -/
theorem head?_splitOutside_append (h : text.filter (isCutMark separator) = []) (rest : Text) :
    (splitOutside (text ++ rest) separator).head? =
      (splitOutside rest separator).head?.map (text ++ ·) := by
  have huncut : Uncut separator 0 text := by
    rw [← uncut_filter_isCutMark, h]
    trivial
  have hdepth : bracketDepth text = 0 := by
    rw [← bracketDepth_filter_isCutMark separator, h]
    rfl
  obtain ⟨piece, pieces, hrest⟩ := exists_cons_of_splitOutsideFrom separator 0 rest
  rw [splitOutside, splitOutside, splitOutsideFrom_append huncut, hdepth, Int.zero_add, hrest,
    foldr_consPiece]
  rfl

/-- A separator outside brackets ends the first piece. -/
theorem head?_splitOutside_cons (hseparator : bracketDelta separator = 0) (rest : Text) :
    (splitOutside (separator :: rest) separator).head? = some [] := by
  rw [splitOutside, splitOutsideFrom, if_pos (by simp [hseparator])]
  rfl

end MemberSplit.Text
