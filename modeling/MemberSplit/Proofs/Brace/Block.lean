import Mathlib.Data.List.Basic
import MemberSplit.Brace.Balance
import MemberSplit.Brace.Block

/-!
# Blocks on their own

A block is found by reading on from its opening brace until the depth would fall below that brace.
So what comes behind the block cannot change it: the text of the block alone, read from its start,
gives the same block, and its braces are balanced.
-/

namespace MemberSplit

namespace Brace

/-- The depth behind a character, or nothing where the block ends. -/
def depthAfter? (depth : Nat) : Option Brace → Option Nat
  | none => some depth
  | some .opening => some (depth + 1)
  | some .closing =>
    match depth with
    | 0 => none
    | depth + 1 => some depth

theorem eq_of_ofChar?_closing {context : Lexical.Context} {c : Char}
    (h : ofChar? context c = some .closing) : c = '}' := by
  unfold ofChar? at h
  split at h
  · cases h
  · split at h
    · cases h
    · split at h
      next hc => exact hc
      next => cases h

theorem depthAfter?_eq_none_iff {depth : Nat} {brace : Option Brace} :
    depthAfter? depth brace = none ↔ brace = some .closing ∧ depth = 0 := by
  rcases brace with - | - | - <;> cases depth <;> simp [depthAfter?]

theorem net_of_depthAfter? {depth depth' : Nat} {brace : Option Brace}
    (h : depthAfter? depth brace = some depth') (balance : Balance) :
    (brace.elim balance balance.push).net - depth' = balance.net - depth := by
  rcases brace with - | - | -
  · obtain rfl : depth = depth' := by simpa [depthAfter?] using h
    rfl
  · obtain rfl : depth + 1 = depth' := by simpa [depthAfter?] using h
    simp only [Option.elim, Balance.push]
    omega
  · cases depth with
    | zero => cases h
    | succ depth =>
        obtain rfl : depth = depth' := by simpa [depthAfter?] using h
        simp only [Option.elim, Balance.push]
        omega

/-- The net depth follows the depth of the block, and the lowest depth is not reached again. -/
theorem push_of_depthAfter? {depth depth' : Nat} {brace : Option Brace}
    (h : depthAfter? depth brace = some depth') {balance : Balance}
    (hlowest : balance.lowest ≤ balance.net - (depth + 1)) :
    (brace.elim balance balance.push).lowest = balance.lowest ∧
      (brace.elim balance balance.push).net - depth' = balance.net - depth := by
  refine ⟨?_, net_of_depthAfter? h balance⟩
  rcases brace with - | - | -
  · rfl
  · rfl
  · cases depth with
    | zero => cases h
    | succ depth =>
        simp only [Option.elim, Balance.push]
        omega

end Brace

namespace Balance

theorem foldl_push_listFrom_cons (mode : ScanMode) (context : Lexical.Context) (balance : Balance)
    (c : Char) (rest : Text) :
    (Brace.listFrom mode context (c :: rest)).foldl push balance =
      (Brace.listFrom mode (Brace.nextContext mode context c rest.head?) rest).foldl push
        ((Brace.ofChar? context c).elim balance balance.push) := by
  rw [Brace.listFrom]
  cases Brace.ofChar? context c <;> rfl

end Balance

namespace Block

variable {mode : ScanMode} {context : Lexical.Context} {depth : Nat} {text inner rest : Text}

theorem splitFrom?_cons (mode : ScanMode) (context : Lexical.Context) (depth : Nat) (c : Char)
    (others : Text) :
    splitFrom? mode context depth (c :: others) =
      (Brace.depthAfter? depth (Brace.ofChar? context c)).elim (some ([c], others)) fun depth =>
        (splitFrom? mode (Brace.nextContext mode context c others.head?) depth others).map
          (Text.extend [c]) := by
  simp only [splitFrom?]
  rcases Brace.ofChar? context c with - | - | -
  · rfl
  · rfl
  · cases depth <;> rfl

/-- A character of a block ends it, or the block goes on behind the character. -/
theorem splitFrom?_cons_cases {c : Char} {others : Text}
    (h : splitFrom? mode context depth (c :: others) = some (inner, rest)) :
    (Brace.depthAfter? depth (Brace.ofChar? context c) = none ∧ inner = [c] ∧ rest = others) ∨
    ∃ depth' inner', Brace.depthAfter? depth (Brace.ofChar? context c) = some depth' ∧
      inner = c :: inner' ∧
      splitFrom? mode (Brace.nextContext mode context c others.head?) depth' others =
        some (inner', rest) := by
  rw [splitFrom?_cons] at h
  cases hdepth : Brace.depthAfter? depth (Brace.ofChar? context c) with
  | none =>
      simp only [hdepth, Option.elim, Option.some.injEq, Prod.mk.injEq] at h
      exact .inl ⟨rfl, h.1.symm, h.2.symm⟩
  | some depth' =>
      simp only [hdepth, Option.elim] at h
      obtain ⟨⟨inner', rest'⟩, hothers, heq⟩ := Option.map_eq_some_iff.mp h
      simp only [Text.extend_mk, Prod.mk.injEq] at heq
      obtain ⟨rfl, rfl⟩ := heq
      exact .inr ⟨depth', inner', rfl, rfl, hothers⟩

/-- A block and the text behind it make up the text. -/
theorem splitFrom?_append (h : splitFrom? mode context depth text = some (inner, rest)) :
    inner ++ rest = text := by
  induction text generalizing context depth inner with
  | nil => simp [splitFrom?] at h
  | cons c others ih =>
      rcases splitFrom?_cons_cases h with ⟨-, rfl, rfl⟩ | ⟨depth', inner', -, rfl, hothers⟩
      · rfl
      · rw [List.cons_append, ih hothers]

theorem splitFrom?_ne_nil (h : splitFrom? mode context depth text = some (inner, rest)) :
    inner ≠ [] := by
  cases text with
  | nil => simp [splitFrom?] at h
  | cons c others =>
      rcases splitFrom?_cons_cases h with ⟨-, rfl, -⟩ | ⟨_, _, -, rfl, -⟩ <;> simp

/-- The first character behind a place in a block belongs to the block, whatever follows it. -/
theorem head?_of_splitFrom? (h : splitFrom? mode context depth text = some (inner, rest))
    (other : Text) : (inner ++ other).head? = text.head? := by
  rw [← splitFrom?_append h, List.head?_append_of_ne_nil _ (splitFrom?_ne_nil h),
    List.head?_append_of_ne_nil _ (splitFrom?_ne_nil h)]

/-- What a block is followed by plays no part in finding it. -/
theorem splitFrom?_congr (h : splitFrom? mode context depth text = some (inner, rest))
    (other : Text) : splitFrom? mode context depth (inner ++ other) = some (inner, other) := by
  induction text generalizing context depth inner with
  | nil => simp [splitFrom?] at h
  | cons c others ih =>
      rcases splitFrom?_cons_cases h with ⟨hend, rfl, rfl⟩ | ⟨depth', inner', hdepth, rfl, hothers⟩
      · rw [List.cons_append, List.nil_append, splitFrom?_cons, hend]
        rfl
      · rw [List.cons_append, splitFrom?_cons, hdepth, Option.elim, head?_of_splitFrom? hothers,
          ih hothers]
        rfl

theorem getLast?_of_splitFrom? (h : splitFrom? mode context depth text = some (inner, rest)) :
    inner.getLast? = some '}' := by
  induction text generalizing context depth inner with
  | nil => simp [splitFrom?] at h
  | cons c others ih =>
      rcases splitFrom?_cons_cases h with ⟨hend, rfl, rfl⟩ | ⟨depth', inner', -, rfl, hothers⟩
      · obtain ⟨hbrace, -⟩ := Brace.depthAfter?_eq_none_iff.mp hend
        rw [List.getLast?_singleton, Brace.eq_of_ofChar?_closing hbrace]
      · rw [List.getLast?_cons, ih hothers]
        rfl

/-- Going through a block takes the net depth to what it was before the brace that opened the
block. The lowest depth stays, if it was no higher than that. -/
theorem foldl_push_of_splitFrom? (h : splitFrom? mode context depth text = some (inner, rest))
    (balance : Balance) (hlowest : balance.lowest ≤ balance.net - (depth + 1)) :
    (Brace.listFrom mode context inner).foldl Balance.push balance =
      ⟨balance.net - (depth + 1), balance.lowest⟩ := by
  induction text generalizing context depth inner balance with
  | nil => simp [splitFrom?] at h
  | cons c others ih =>
      rcases splitFrom?_cons_cases h with ⟨hend, rfl, rfl⟩ | ⟨depth', inner', hdepth, rfl, hothers⟩
      · obtain ⟨hbrace, rfl⟩ := Brace.depthAfter?_eq_none_iff.mp hend
        rw [Balance.foldl_push_listFrom_cons, hbrace]
        have hmin : min balance.lowest (balance.net - 1) = balance.lowest := by omega
        simp [Brace.listFrom, Balance.push, hmin]
      · obtain ⟨hsame, hnet⟩ := Brace.push_of_depthAfter? hdepth hlowest
        have hhead : inner'.head? = others.head? := by
          simpa using head?_of_splitFrom? hothers []
        have hrest := ih hothers ((Brace.ofChar? context c).elim balance balance.push) (by omega)
        rw [Balance.foldl_push_listFrom_cons, hhead, hrest, hsame]
        congr 1
        omega

/-- Behind an opening brace the depth is counted on from one. -/
theorem ofText_brace_cons (mode : ScanMode) (text : Text) :
    Balance.ofText mode ('{' :: text) =
      (Brace.listFrom mode .start text).foldl Balance.push ⟨1, 0⟩ := by
  have hstart : Brace.nextContext mode .start '{' text.head? = .start := by
    cases mode <;> rfl
  have hopen : Brace.ofChar? .start '{' = some .opening := rfl
  rw [Balance.ofText, Brace.list, Balance.foldl_push_listFrom_cons, hstart, hopen]
  rfl

/-- A block with its opening brace is balanced when it is looked at alone. -/
theorem ofText_of_split? (h : split? mode text = some (inner, rest)) :
    Balance.ofText mode ('{' :: inner) = .zero := by
  rw [ofText_brace_cons]
  exact foldl_push_of_splitFrom? h ⟨1, 0⟩ (by simp)

end Block

end MemberSplit
