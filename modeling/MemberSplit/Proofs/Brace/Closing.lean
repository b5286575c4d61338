import MemberSplit.Proofs.Brace.Block
import MemberSplit.Proofs.Text.Cut

/-!
# Where a block closes

The brace that closes a block stands at the first place behind the opening brace where the depth,
counted from that brace on, is back at zero. The depth up to a place is that of the text up to there
alone: whether a brace counts is told by what stands in front of it, and the character behind the
place can change only how the text goes on.
-/

namespace MemberSplit

namespace Brace

/-- The context behind the last character of a text has no part in what the text holds. -/
theorem listFrom_nextContext_append (mode : ScanMode) (context : Lexical.Context) (c : Char)
    (front back : Text) :
    listFrom mode (nextContext mode context c (front ++ back).head?) front =
      listFrom mode (nextContext mode context c front.head?) front := by
  cases front <;> rfl

end Brace

namespace Block

variable {mode : ScanMode} {text before inner rest : Text} {opening closing depth : Nat}

/-- As long as a block has not ended, no more braces are closed than are open. -/
theorem net_of_length_lt {context : Lexical.Context} {front back : Text}
    (h : ∀ inner rest, splitFrom? mode context depth (front ++ back) = some (inner, rest) →
      front.length < inner.length) (balance : Balance) :
    balance.net - depth ≤ ((Brace.listFrom mode context front).foldl Balance.push balance).net := by
  induction front generalizing context depth balance with
  | nil =>
      simp only [Brace.listFrom, List.foldl_nil]
      omega
  | cons c others ih =>
      rw [List.cons_append, splitFrom?_cons] at h
      rw [Balance.foldl_push_listFrom_cons,
        ← Brace.listFrom_nextContext_append mode context c others back]
      cases hdepth : Brace.depthAfter? depth (Brace.ofChar? context c) with
      | none =>
          have hshort := h [c] (others ++ back) (by rw [hdepth]; rfl)
          simp at hshort
      | some depth' =>
          rw [← Brace.net_of_depthAfter? hdepth balance]
          apply ih
          intro inner rest hsplit
          have hlonger := h (c :: inner) rest (by rw [hdepth, Option.elim, hsplit]; rfl)
          exact Nat.lt_of_succ_lt_succ hlonger

/-- The depth is at least one up to each place from an opening brace on, in front of an offset. -/
def IsOpenUpTo (mode : ScanMode) (text : Text) (opening stop : Nat) : Prop :=
  ∀ place, opening ≤ place → place < stop → text.IsCut (place + 1) →
    1 ≤ (Balance.ofText mode (text.slice opening (place + 1))).net

/-- The brace at one offset is closed by the one at another. -/
structure IsClosedAt (mode : ScanMode) (text : Text) (opening closing : Nat) : Prop where
  behind : opening < closing
  brace : ∃ front back, text = front ++ '}' :: back ∧ front.byteLength = closing
  net : (Balance.ofText mode (text.slice opening (closing + 1))).net = 0
  balanced : (Balance.ofText mode (text.slice opening (closing + 1))).isBalanced = true
  isOpen : IsOpenUpTo mode text opening closing

theorem closingBrace?_brace (mode : ScanMode) (before rest : Text) :
    closingBrace? (before ++ '{' :: rest) before.byteLength mode =
      (split? mode rest).map fun parts => before.byteLength + parts.1.byteLength := by
  rw [closingBrace?, Text.dropBytes_append]
  rfl

/-- In front of its end a block is open. -/
theorem isOpenUpTo_of_length_lt {stop : Nat}
    (h : ∀ front back, rest = front ++ back → before.byteLength + front.byteLength < stop →
      ∀ inner behind, split? mode rest = some (inner, behind) → front.length < inner.length) :
    IsOpenUpTo mode (before ++ '{' :: rest) before.byteLength stop := by
  intro place hopening hstop hcut
  have hone : Char.utf8Size '{' = 1 := by decide
  have htext : before ++ '{' :: rest = (before ++ ['{']) ++ rest := by simp
  have hlength : (before ++ ['{']).byteLength = before.byteLength + 1 := by
    rw [Text.byteLength_append, Text.byteLength, hone, Text.byteLength_nil]
  rw [htext] at hcut
  obtain ⟨front, back, rfl, hplace, -⟩ := hcut.exists_slice (by omega)
  have hslice : (before ++ '{' :: (front ++ back)).slice before.byteLength (place + 1) =
      '{' :: front := by
    refine Text.slice_eq_between back rfl rfl ?_
    rw [Text.byteLength_append, Text.byteLength, hone]
    omega
  have hnet := net_of_length_lt (h front back rfl (by omega)) ⟨1, 0⟩
  rw [hslice, ofText_brace_cons]
  simpa using hnet

theorem isClosedAt_of_split? (h : split? mode rest = some (inner, text)) :
    IsClosedAt mode (before ++ '{' :: rest) before.byteLength
      (before.byteLength + inner.byteLength) := by
  obtain ⟨front, rfl⟩ : ∃ front, inner = front ++ ['}'] :=
    List.getLast?_eq_some_iff.mp (getLast?_of_splitFrom? h)
  have hbraces : Char.utf8Size '{' = 1 ∧ Char.utf8Size '}' = 1 := by decide
  have hinner : Text.byteLength (front ++ ['}']) = front.byteLength + 1 := by
    rw [Text.byteLength_append, Text.byteLength, hbraces.2, Text.byteLength_nil]
  have hrest := splitFrom?_append h
  have hslice : (before ++ '{' :: rest).slice before.byteLength
      (before.byteLength + Text.byteLength (front ++ ['}']) + 1) = '{' :: (front ++ ['}']) := by
    apply Text.slice_eq_between text
    · rw [← hrest]
      rfl
    · rfl
    · rw [Text.byteLength_append, Text.byteLength, hbraces.1]
      omega
  have hbalance := ofText_of_split? h
  refine
    { behind := by omega
      brace := ⟨before ++ '{' :: front, text, by simp [← hrest], ?_⟩
      net := by rw [hslice, hbalance]; rfl
      balanced := by rw [hslice, hbalance]; rfl
      isOpen := isOpenUpTo_of_length_lt ?_ }
  · rw [Text.byteLength_append, Text.byteLength, hbraces.1, hinner]
    omega
  · intro front' back hfront hshort inner behind hsplit
    obtain ⟨rfl, rfl⟩ := Prod.mk.inj (Option.some.inj (h.symm.trans hsplit))
    obtain ⟨between, hbetween, -⟩ := Text.exists_between (hfront.symm.trans hrest.symm) (by omega)
    have hne : between ≠ [] := by
      rintro rfl
      rw [List.append_nil] at hbetween
      rw [hbetween] at hshort
      omega
    have hpositive := List.length_pos_iff.mpr hne
    rw [hbetween, List.length_append]
    omega

theorem isOpenUpTo_of_split?_eq_none (h : split? mode rest = none) (stop : Nat) :
    IsOpenUpTo mode (before ++ '{' :: rest) before.byteLength stop := by
  apply isOpenUpTo_of_length_lt
  intro front back _ _ inner behind hsplit
  rw [h] at hsplit
  cases hsplit

theorem IsClosedAt.isCut (h : IsClosedAt mode text opening closing) : text.IsCut (closing + 1) := by
  obtain ⟨front, back, htext, hclosing⟩ := h.brace
  have hone : Char.utf8Size '}' = 1 := by decide
  refine ⟨front ++ ['}'], back, by simp [htext], ?_⟩
  rw [Text.byteLength_append, Text.byteLength, hone, hclosing, Text.byteLength_nil]

theorem IsClosedAt.lt_byteLength (h : IsClosedAt mode text opening closing) :
    closing < text.byteLength := by
  obtain ⟨front, back, rfl, rfl⟩ := h.brace
  have hone : Char.utf8Size '}' = 1 := by decide
  rw [Text.byteLength_append, Text.byteLength, hone]
  omega

/-- The brace that closes a block stands where the depth is not one. -/
theorem IsClosedAt.le_of_isOpenUpTo {stop : Nat} (h : IsClosedAt mode text opening closing)
    (hopen : IsOpenUpTo mode text opening stop) : stop ≤ closing := by
  apply Nat.le_of_not_lt
  intro hlt
  have hnet := hopen closing (Nat.le_of_lt h.behind) hlt h.isCut
  rw [h.net] at hnet
  exact absurd hnet (by decide)

theorem IsClosedAt.unique {closing' : Nat} (h : IsClosedAt mode text opening closing)
    (h' : IsClosedAt mode text opening closing') : closing = closing' :=
  Nat.le_antisymm (h'.le_of_isOpenUpTo h.isOpen) (h.le_of_isOpenUpTo h'.isOpen)

theorem closingBrace?_eq_some_iff :
    closingBrace? (before ++ '{' :: rest) before.byteLength mode = some closing ↔
      IsClosedAt mode (before ++ '{' :: rest) before.byteLength closing := by
  rw [closingBrace?_brace]
  cases hsplit : split? mode rest with
  | none =>
      refine ⟨nofun, fun hclosed => ?_⟩
      have hle := hclosed.le_of_isOpenUpTo (isOpenUpTo_of_split?_eq_none hsplit (closing + 1))
      omega
  | some parts =>
      have hclosed : IsClosedAt mode (before ++ '{' :: rest) before.byteLength
          (before.byteLength + parts.1.byteLength) := isClosedAt_of_split? hsplit
      constructor
      · intro h
        obtain rfl := Option.some.inj h
        exact hclosed
      · intro h
        exact congrArg some (hclosed.unique h)

theorem closingBrace?_eq_none_iff :
    closingBrace? (before ++ '{' :: rest) before.byteLength mode = none ↔
      IsOpenUpTo mode (before ++ '{' :: rest) before.byteLength
        (before ++ '{' :: rest).byteLength := by
  constructor
  · intro h
    rw [closingBrace?_brace, Option.map_eq_none_iff] at h
    exact isOpenUpTo_of_split?_eq_none h _
  · intro hopen
    apply Option.eq_none_iff_forall_not_mem.mpr
    intro closing h
    have hclosed := closingBrace?_eq_some_iff.mp h
    exact absurd hclosed.lt_byteLength (Nat.not_lt.mpr (hclosed.le_of_isOpenUpTo hopen))

/-- A block closes in the same way in front of any other text and behind any other text. -/
theorem closingBrace?_slice (before' after' : Text)
    (h : closingBrace? (before ++ '{' :: rest) before.byteLength mode = some closing) :
    closingBrace?
        (before' ++ ((before ++ '{' :: rest).slice before.byteLength (closing + 1) ++ after'))
        before'.byteLength mode =
      some (before'.byteLength + (closing - before.byteLength)) := by
  rw [closingBrace?_brace] at h
  obtain ⟨⟨inner, behind⟩, hsplit, rfl⟩ := Option.map_eq_some_iff.mp h
  have hone : Char.utf8Size '{' = 1 := by decide
  have hslice : (before ++ '{' :: rest).slice before.byteLength
      (before.byteLength + inner.byteLength + 1) = '{' :: inner := by
    rw [← splitFrom?_append hsplit]
    refine Text.slice_eq_between behind rfl rfl ?_
    rw [Text.byteLength_append, Text.byteLength, hone]
    omega
  rw [hslice, List.cons_append, closingBrace?_brace, split?, splitFrom?_congr hsplit after']
  simp

/-- The brace that closes a block is found exactly: it is the one that brings the depth back to
zero, and it is missing if none does. Only the text of the block has a part in that. -/
theorem closingBrace?_isExact (mode : ScanMode) (before rest : Text) :
    (∀ closing,
      closingBrace? (before ++ '{' :: rest) before.byteLength mode = some closing ↔
        IsClosedAt mode (before ++ '{' :: rest) before.byteLength closing) ∧
    (closingBrace? (before ++ '{' :: rest) before.byteLength mode = none ↔
      IsOpenUpTo mode (before ++ '{' :: rest) before.byteLength
        (before ++ '{' :: rest).byteLength) ∧
    (∀ closing,
      closingBrace? (before ++ '{' :: rest) before.byteLength mode = some closing →
        ∀ before' after',
          closingBrace?
              (before' ++ ((before ++ '{' :: rest).slice before.byteLength (closing + 1) ++ after'))
              before'.byteLength mode =
            some (before'.byteLength + (closing - before.byteLength))) ∧
    ∀ before',
      closingBrace? (before' ++ '{' :: rest) before'.byteLength mode =
        (closingBrace? (before ++ '{' :: rest) before.byteLength mode).map fun closing =>
          before'.byteLength + (closing - before.byteLength) := by
  refine ⟨fun _ => closingBrace?_eq_some_iff, closingBrace?_eq_none_iff,
    fun _ h before' after' => closingBrace?_slice before' after' h, ?_⟩
  intro before'
  rw [closingBrace?_brace, closingBrace?_brace, Option.map_map]
  congr 1
  funext parts
  simp

end Block

end MemberSplit
