import Mathlib.Algebra.Order.BigOperators.Group.List
import MemberSplit.Proofs.Path.Pieces
import MemberSplit.Proofs.Text.Filling

/-!
# Paths with places

A text without slashes that is filled into a path stays within a piece of it. If it has no dots
either, the names of the path tell what was filled in, although the pieces that mean nothing are
dropped from them.
-/

namespace MemberSplit.Path

open Text (Form fill)

variable {first second substitute : Text} {form piece : Form}

/-- What stands between the slashes of a form. -/
def formPieces (form : Form) : List Form :=
  form.splitOn (some '/')

theorem pieces_append_of_not_mem (h : '/' ∉ first) (rest : Path) :
    pieces (first ++ rest) = (pieces rest).modifyHead (first ++ ·) := by
  induction first with
  | nil => cases hpieces : pieces rest <;> simp [hpieces]
  | cons c others ih =>
      obtain ⟨hc, hothers⟩ := not_or.mp fun hmem => h (List.mem_cons.mpr hmem)
      have hsplit : pieces (c :: (others ++ rest)) =
          (pieces (others ++ rest)).modifyHead (c :: ·) := by
        simp only [pieces_eq_splitOn, List.splitOn]
        rw [List.splitOnP_cons_eq_if_modifyHead, if_neg (by simpa using Ne.symm hc)]
      rw [List.cons_append, hsplit, ih hothers, List.modifyHead_modifyHead]
      rfl

/-- A path that is put together from parts, of which one kind is a slash and the others hold none,
has the pieces that stand between the slashes among the parts. -/
theorem pieces_flatMap {α : Type} [BEq α] [LawfulBEq α] (spell : α → Text) (slash : α)
    (hslash : spell slash = ['/']) {parts : List α}
    (hother : ∀ part ∈ parts, part ≠ slash → '/' ∉ spell part) :
    pieces (parts.flatMap spell) = (parts.splitOn slash).map fun piece => piece.flatMap spell := by
  induction parts with
  | nil => rfl
  | cons part rest ih =>
      obtain ⟨hpart, hrest⟩ := List.forall_mem_cons.mp hother
      have hpieces := ih hrest
      rw [List.splitOn] at hpieces ⊢
      rw [List.flatMap_cons, List.splitOnP_cons_eq_if_modifyHead]
      by_cases hkind : part = slash
      · rw [hkind, hslash, if_pos (by simp), List.map_cons, ← hpieces]
        exact pieces_append_slash [] _
      · rw [if_neg (by simpa using hkind), pieces_append_of_not_mem (hpart hkind), hpieces]
        cases rest.splitOnP (· == slash) <;> simp

/-- The pieces of a filled form are the pieces of the form, each of them filled. -/
theorem pieces_fill (h : '/' ∉ substitute) (form : Form) :
    pieces (fill substitute form) = (formPieces form).map (fill substitute) := by
  have hother : ∀ part ∈ form, part ≠ some '/' → '/' ∉ part.elim substitute fun c => [c] := by
    intro part _ hpart
    cases part with
    | none => exact h
    | some c => simpa using Ne.symm fun hc => hpart (congrArg some hc)
  exact pieces_flatMap (fun part => part.elim substitute fun c => [c]) (some '/') rfl hother

theorem exists_place_mem_formPieces (h : none ∈ form) :
    ∃ piece ∈ formPieces form, none ∈ piece := by
  induction form with
  | nil => cases h
  | cons head rest ih =>
      obtain ⟨first, others, hrest⟩ :=
        List.exists_cons_of_ne_nil (List.splitOn_ne_nil (some '/') rest)
      simp only [formPieces, List.splitOn] at ih hrest ⊢
      rw [hrest] at ih
      rw [List.splitOnP_cons_eq_if_modifyHead, hrest]
      cases head with
      | none => exact ⟨none :: first, by simp, List.mem_cons_self⟩
      | some c =>
          obtain ⟨piece, hpiece, hmem⟩ := ih (by simpa using h)
          split
          next => exact ⟨piece, List.mem_cons_of_mem _ hpiece, hmem⟩
          next =>
            rcases List.mem_cons.mp hpiece with rfl | hother
            · exact ⟨some c :: piece, by simp, List.mem_cons_of_mem _ hmem⟩
            · exact ⟨piece, List.mem_cons_of_mem _ hother, hmem⟩

theorem names_fill (h : '/' ∉ substitute) (form : Form) :
    names (fill substitute form) =
      ((formPieces form).filter fun piece => !isFiller (fill substitute piece)).map
        (fill substitute) := by
  rw [names, pieces_fill h, List.filter_map]
  rfl

/-- A piece with a place means something if something is filled in. -/
theorem isFiller_fill (hplace : none ∈ piece) (hdot : '.' ∉ substitute) (hne : substitute ≠ []) :
    isFiller (fill substitute piece) = false := by
  obtain ⟨c, rest, rfl⟩ := List.exists_cons_of_ne_nil hne
  have hc : c ∈ fill (c :: rest) piece :=
    List.mem_flatMap.mpr ⟨none, hplace, List.mem_cons_self⟩
  refine Bool.or_eq_false_iff.mpr ⟨?_, decide_eq_false ?_⟩
  · cases hfill : fill (c :: rest) piece with
    | nil => rw [hfill] at hc; cases hc
    | cons => rfl
  · intro hfill
    rw [hfill] at hc
    obtain rfl : c = '.' := List.mem_singleton.mp hc
    exact hdot List.mem_cons_self

/-- The length of a piece, if it means something. -/
def weight (piece : Text) : Nat :=
  if isFiller piece then 0 else piece.length

theorem sum_length_names (path : Path) :
    (path.names.map List.length).sum = (path.pieces.map weight).sum := by
  unfold names
  induction path.pieces with
  | nil => rfl
  | cons piece rest ih => cases hfiller : isFiller piece <;> simp [hfiller, weight, ih]

theorem weight_fill_lt (hplace : none ∈ piece) (hdot : '.' ∉ second)
    (h : first.length < second.length) :
    weight (fill first piece) < weight (fill second piece) := by
  have hne : second ≠ [] := List.ne_nil_of_length_pos (Nat.zero_lt_of_lt h)
  have hlength := Text.length_fill_lt hplace h
  rw [weight, weight, isFiller_fill hplace hdot hne]
  split <;> simp <;> omega

/-- The more is filled in, the longer the names are, taken together. -/
theorem sum_length_names_fill_lt (hplace : none ∈ form) (hfirst : '/' ∉ first)
    (hsecond : '/' ∉ second) (hdot : '.' ∉ second) (h : first.length < second.length) :
    ((names (fill first form)).map List.length).sum <
      ((names (fill second form)).map List.length).sum := by
  rw [sum_length_names, sum_length_names, pieces_fill hfirst, pieces_fill hsecond, List.map_map,
    List.map_map]
  obtain ⟨piece, hpiece, hmem⟩ := exists_place_mem_formPieces hplace
  refine List.sum_lt_sum _ _ (fun other _ => ?_) ⟨piece, hpiece, weight_fill_lt hmem hdot h⟩
  by_cases hother : none ∈ other
  · exact (weight_fill_lt hother hdot h).le
  · exact (congrArg weight (Text.fill_congr hother first second)).le

/-- The names of a path with a place tell what was filled in. -/
theorem names_fill_injective (hplace : none ∈ form) (hfirst : '/' ∉ first ∧ '.' ∉ first)
    (hsecond : '/' ∉ second ∧ '.' ∉ second)
    (h : names (fill first form) = names (fill second form)) : first = second := by
  have hsum := congrArg (fun names => (names.map List.length).sum) h
  rcases Nat.lt_trichotomy first.length second.length with hlt | heq | hlt
  · exact absurd hsum (sum_length_names_fill_lt hplace hfirst.1 hsecond.1 hsecond.2 hlt).ne
  · by_cases hempty : first = []
    · rw [hempty] at heq ⊢
      exact (List.eq_nil_of_length_eq_zero heq.symm).symm
    · have hempty' : second ≠ [] := fun hnil => hempty (by simpa [hnil] using heq)
      -- Both times the same pieces mean something.
      have hfiller : ∀ piece : Form,
          isFiller (fill second piece) = isFiller (fill first piece) := by
        intro piece
        by_cases hmem : none ∈ piece
        · rw [isFiller_fill hmem hfirst.2 hempty, isFiller_fill hmem hsecond.2 hempty']
        · rw [Text.fill_congr hmem second first]
      rw [names_fill hfirst.1, names_fill hsecond.1] at h
      simp only [hfiller] at h
      obtain ⟨piece, hpiece, hmem⟩ := exists_place_mem_formPieces hplace
      have hkept := isFiller_fill hmem hfirst.2 hempty
      have hfilled := List.map_inj_left.mp h piece (List.mem_filter.mpr ⟨hpiece, by simp [hkept]⟩)
      exact Text.fill_injective hmem hfilled
  · exact absurd hsum (sum_length_names_fill_lt hplace hsecond.1 hfirst.1 hfirst.2 hlt).ne'

end MemberSplit.Path
