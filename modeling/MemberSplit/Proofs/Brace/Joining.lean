import MemberSplit.Brace.Balance
import MemberSplit.Proofs.Text.Brackets

/-!
# Balance of joined texts

In literal scanning a character tells on its own whether it is a brace. So the braces of joined
texts are the braces of the one and then those of the other: the net depths add up, and the lowest
depth is reached in the first text, or in the second one counted from where the first one ends.
-/

namespace MemberSplit

theorem Brace.listFrom_literal_append (text rest : Text) :
    listFrom .literal .start (text ++ rest) =
      listFrom .literal .start text ++ listFrom .literal .start rest := by
  induction text with
  | nil => rfl
  | cons c others ih =>
      have hcontext : ∀ following, nextContext .literal .start c following = .start :=
        fun _ => rfl
      rw [List.cons_append, listFrom, listFrom, hcontext, hcontext, ih]
      cases ofChar? .start c <;> rfl

namespace Balance

/-- The balance of some braces and then of others. -/
def append (first second : Balance) : Balance :=
  ⟨first.net + second.net, min first.lowest (first.net + second.lowest)⟩

variable {balance : Balance} {mode : ScanMode} {text gap : Text} {parts : List Text}

theorem lowest_push_le_net (h : balance.lowest ≤ balance.net) (brace : Brace) :
    (balance.push brace).lowest ≤ (balance.push brace).net := by
  cases brace <;> simp only [push] <;> omega

theorem lowest_foldl_push_le_net (h : balance.lowest ≤ balance.net) (braces : List Brace) :
    (braces.foldl push balance).lowest ≤ (braces.foldl push balance).net := by
  induction braces generalizing balance with
  | nil => exact h
  | cons brace rest ih => exact ih (lowest_push_le_net h brace)

/-- Going on through some braces adds their balance to what has been counted. -/
theorem foldl_push_eq_append (h : balance.lowest ≤ balance.net) (braces : List Brace) :
    braces.foldl push balance = balance.append (braces.foldl push zero) := by
  induction braces generalizing balance with
  | nil => simp only [List.foldl_nil, append, zero, Int.add_zero, Int.min_eq_left h]
  | cons brace rest ih =>
      have hzero : zero.lowest ≤ zero.net := Int.le_refl 0
      rw [List.foldl_cons, List.foldl_cons, ih (lowest_push_le_net h brace),
        ih (lowest_push_le_net hzero brace)]
      cases brace <;> simp only [append, push, zero, Balance.mk.injEq] <;> omega

theorem lowest_foldl_push_le (balance : Balance) (braces : List Brace) :
    (braces.foldl push balance).lowest ≤ balance.lowest := by
  induction braces generalizing balance with
  | nil => exact Int.le_refl _
  | cons brace rest ih =>
      refine Int.le_trans (ih (balance.push brace)) ?_
      cases brace <;> simp only [push] <;> omega

/-- A text is balanced exactly if its depth is zero at its end and nowhere lower. -/
theorem isBalanced_ofText_iff : (ofText mode text).isBalanced = true ↔ ofText mode text = zero := by
  have hlowest : (ofText mode text).lowest ≤ 0 := lowest_foldl_push_le zero (Brace.list mode text)
  constructor
  · intro hbalanced
    simp only [isBalanced, Bool.and_eq_true, decide_eq_true_eq] at hbalanced
    exact congrArg₂ Balance.mk hbalanced.1 (Int.le_antisymm hlowest hbalanced.2)
  · intro hzero
    rw [hzero]
    rfl

theorem ofText_literal_append (text rest : Text) :
    ofText .literal (text ++ rest) = (ofText .literal text).append (ofText .literal rest) := by
  have hzero : zero.lowest ≤ zero.net := Int.le_refl 0
  rw [ofText, Brace.list, Brace.listFrom_literal_append, List.foldl_append]
  exact foldl_push_eq_append (lowest_foldl_push_le_net hzero _) _

theorem net_literal_append (text rest : Text) :
    (ofText .literal (text ++ rest)).net =
      (ofText .literal text).net + (ofText .literal rest).net :=
  congrArg net (ofText_literal_append text rest)

theorem ofText_literal_append_eq_zero {rest : Text} (htext : ofText .literal text = zero)
    (hrest : ofText .literal rest = zero) : ofText .literal (text ++ rest) = zero := by
  rw [ofText_literal_append, htext, hrest]
  rfl

/-- The gaps between joined texts have no part in the net depth, if they hold no braces. -/
theorem net_literal_joinWith (hgap : ofText .literal gap = zero) (parts : List Text) :
    (ofText .literal (Text.joinWith gap parts)).net =
      (parts.map fun part => (ofText .literal part).net).sum := by
  induction parts with
  | nil => rfl
  | cons first rest ih =>
      cases rest with
      | nil => simp [Text.joinWith]
      | cons next others =>
          rw [Text.joinWith_cons_cons, net_literal_append, net_literal_append, ih, hgap,
            List.map_cons, List.sum_cons]
          simp [zero]

/-- What is joined from balanced texts is balanced. -/
theorem ofText_literal_joinWith_eq_zero (hgap : ofText .literal gap = zero)
    (hparts : ∀ part ∈ parts, ofText .literal part = zero) :
    ofText .literal (Text.joinWith gap parts) = zero := by
  induction parts with
  | nil => rfl
  | cons first rest ih =>
      obtain ⟨hfirst, hrest⟩ := List.forall_mem_cons.mp hparts
      cases rest with
      | nil => simpa [Text.joinWith] using hfirst
      | cons next others =>
          rw [Text.joinWith_cons_cons]
          exact ofText_literal_append_eq_zero (ofText_literal_append_eq_zero hfirst hgap) (ih hrest)

end Balance

end MemberSplit
