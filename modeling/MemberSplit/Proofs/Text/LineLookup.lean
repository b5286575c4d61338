import MemberSplit.Proofs.Text.Line

/-!
# Looking up lines

The starts of the lines are in ascending order, so that the line of an offset can be found by a
binary search among them. Main statement: for every offset, that line is the one on which it lies,
its span runs from one newline to the next, and no two lines meet.
-/

namespace MemberSplit.Text

section Search

/-- Index of a value in an ascending row, sought from `low` on and in front of `high`, or else the
index at which it can be put in. -/
def searchBetween (row : List Nat) (value low high : Nat) : Except Nat Nat :=
  if low < high then
    let middle := low + (high - low) / 2
    let found := row.getD middle 0
    if found = value then .ok middle
    else if found < value then searchBetween row value (middle + 1) high
    else searchBetween row value low middle
  else .error low
termination_by high - low

/-- Index of a value in an ascending row, or else the index at which it can be put in. -/
def search (row : List Nat) (value : Nat) : Except Nat Nat :=
  searchBetween row value 0 row.length

/-- The line for the result of a search among the starts of the lines: the one that begins at the
offset, or the last one that begins in front of it. -/
def lineFound : Except Nat Nat → Nat
  | .ok index => index + 1
  | .error index => index

/-- The values of the row up to `value` are those in front of an index. -/
def PartsAt (row : List Nat) (value index : Nat) : Prop :=
  index ≤ row.length ∧ ∀ i (h : i < row.length), i < index ↔ row[i] ≤ value

variable {row : List Nat} {value low high index : Nat}

theorem countP_le_of_partsAt (h : PartsAt row value index) :
    row.countP (· ≤ value) = index := by
  obtain ⟨hlength, hparts⟩ := h
  have hfront : (row.take index).countP (· ≤ value) = (row.take index).length := by
    rw [List.countP_eq_length]
    intro x hmem
    obtain ⟨i, hi, rfl⟩ := List.mem_take_iff_getElem.mp hmem
    exact decide_eq_true ((hparts i (by omega)).mp (by omega))
  have hback : (row.drop index).countP (· ≤ value) = 0 := by
    rw [List.countP_eq_zero]
    intro x hmem
    obtain ⟨i, hi, rfl⟩ := List.mem_drop_iff_getElem.mp hmem
    have hnot := mt (hparts (index + i) (by omega)).mpr (by omega)
    simpa using hnot
  have hrow : row.countP (· ≤ value) =
      (row.take index).countP (· ≤ value) + (row.drop index).countP (· ≤ value) := by
    rw [← List.countP_append, List.take_append_drop]
  rw [hrow, hfront, hback, List.length_take, Nat.min_eq_left hlength, Nat.add_zero]

/-- The search keeps what is in front of `low` below the value and what is from `high` on above
it. -/
theorem partsAt_searchBetween (hrow : row.Pairwise (· < ·)) (horder : low ≤ high)
    (hlength : high ≤ row.length)
    (hlow : ∀ i (h : i < row.length), i < low → row[i] < value)
    (hhigh : ∀ i (h : i < row.length), high ≤ i → value < row[i]) :
    PartsAt row value (lineFound (searchBetween row value low high)) := by
  have hmono : ∀ i j (hi : i < row.length) (hj : j < row.length), i < j → row[i] < row[j] :=
    fun i j hi hj hij => List.pairwise_iff_getElem.mp hrow i j hi hj hij
  fun_induction searchBetween row value low high with
  | case1 low high hlt middle found hfound =>
      have hmiddle : middle < row.length := by omega
      have hvalue : row[middle] = value := by simpa [found, hmiddle] using hfound
      refine ⟨hmiddle, fun i hi => ?_⟩
      rcases Nat.lt_trichotomy i middle with hfront | rfl | hback
      · have := hmono i middle hi hmiddle hfront
        simp only [lineFound]
        omega
      · simp only [lineFound]
        omega
      · have := hmono middle i hmiddle hi hback
        simp only [lineFound]
        omega
  | case2 low high hlt middle found hne hless ih =>
      have hmiddle : middle < row.length := by omega
      have hvalue : row[middle] < value := by simpa [found, hmiddle] using hless
      refine ih (by omega) hlength (fun i hi hfront => ?_) hhigh
      rcases Nat.lt_or_eq_of_le (Nat.le_of_lt_succ hfront) with hfront | rfl
      · exact Nat.lt_trans (hmono i middle hi hmiddle hfront) hvalue
      · exact hvalue
  | case3 low high hlt middle found hne hless ih =>
      have hmiddle : middle < row.length := by omega
      have hvalue : value < row[middle] := by
        have hnot : ¬row[middle] < value := by simpa [found, hmiddle] using hless
        have hother : row[middle] ≠ value := by simpa [found, hmiddle] using hne
        omega
      refine ih (by omega) (by omega) hlow (fun i hi hback => ?_)
      rcases Nat.lt_or_eq_of_le hback with hback | rfl
      · exact Nat.lt_trans hvalue (hmono middle i hmiddle hi hback)
      · exact hvalue
  | case4 low high hnot =>
      obtain rfl : low = high := by omega
      refine ⟨hlength, fun i hi => ?_⟩
      simp only [lineFound]
      constructor
      · exact fun hfront => Nat.le_of_lt (hlow i hi hfront)
      · intro hle
        have := mt (hhigh i hi)
        omega

end Search

section Starts

theorem pairwise_newlineEnds (offset : Nat) (text : Text) :
    (newlineEnds offset text).Pairwise (· < ·) := by
  induction text generalizing offset with
  | nil => exact List.Pairwise.nil
  | cons c rest ih =>
      simp only [newlineEnds]
      split
      next =>
        refine List.pairwise_cons.mpr ⟨fun stop hmem => ?_, ih _⟩
        exact (lt_of_mem_newlineEnds hmem).1
      next => exact ih _

theorem pairwise_lineStarts (text : Text) : (lineStarts text).Pairwise (· < ·) := by
  refine List.pairwise_cons.mpr ⟨fun stop hmem => ?_, pairwise_newlineEnds 0 text⟩
  exact (lt_of_mem_newlineEnds hmem).1

theorem length_lineStarts (text : Text) : (lineStarts text).length = 1 + text.count '\n' := by
  rw [lineStarts, List.length_cons, length_newlineEnds, Nat.add_comm]

/-- The line of an offset is what a binary search among the starts of the lines finds. -/
theorem lineAt_eq_lineFound (text : Text) (offset : Nat) :
    text.lineAt offset = lineFound (search text.lineStarts offset) := by
  apply countP_le_of_partsAt
  apply partsAt_searchBetween (pairwise_lineStarts text) (Nat.zero_le _) (Nat.le_refl _)
  · intro i _ hfront
    omega
  · intro i hi hback
    omega

/-- Of two lines, the earlier one ends in front of the start of the later one. -/
theorem lineSpan_snd_lt_lineSpan_fst {earlier later : Nat} (hfirst : 1 ≤ earlier)
    (horder : earlier < later) (hlast : later ≤ 1 + text.count '\n') :
    (lineSpan text earlier).2 < (lineSpan text later).1 := by
  rw [← length_lineStarts] at hlast
  have hearlier : earlier < (lineStarts text).length := by omega
  have hlater : later - 1 < (lineStarts text).length := by omega
  have hmono := List.pairwise_iff_getElem.mp (pairwise_lineStarts text)
  have hzero := hmono 0 earlier (by omega) hearlier (by omega)
  have hle : (lineStarts text)[earlier] ≤ (lineStarts text)[later - 1] := by
    rcases Nat.lt_or_eq_of_le (Nat.le_sub_one_of_lt horder) with hlt | heq
    · exact Nat.le_of_lt (hmono earlier (later - 1) hearlier hlater hlt)
    · simp only [← heq, Nat.le_refl]
  have hstop : (lineSpan text earlier).2 = (lineStarts text)[earlier] - 1 := by
    simp only [lineSpan, List.getElem?_eq_getElem hearlier]
  have hstart : (lineSpan text later).1 = (lineStarts text)[later - 1] :=
    (List.getElem_eq_getD 0).symm
  omega

end Starts

section Place

/-- An offset within a character lies on the line of that character. -/
theorem IsLine.le_byteLength_of_within {text before row after front back : Text} {offset : Nat}
    (h : IsLine text before row after) (htext : text = front ++ back)
    (hfront : front.byteLength ≤ before.byteLength + row.byteLength)
    (hle : front.byteLength ≤ offset) (hlength : offset ≤ text.byteLength)
    (hnext : ∀ c ∈ back.head?, offset < front.byteLength + c.utf8Size) :
    offset ≤ before.byteLength + row.byteLength := by
  have hcuts : front ++ back = (before ++ row) ++ after := by
    rw [← htext, h.text_eq, List.append_assoc]
  obtain ⟨between, hrow, hback⟩ := exists_between hcuts (by rwa [byteLength_append])
  have hline := congrArg byteLength hrow
  rw [byteLength_append, byteLength_append] at hline
  cases between with
  | cons c others =>
      have hwithin := hnext c (by simp [hback])
      rw [byteLength] at hline
      omega
  | nil =>
      rcases h.ends with rfl | hnewline
      · rw [htext, hback, List.append_nil, List.append_nil] at hlength
        rw [byteLength_nil] at hline
        omega
      · have hone : Char.utf8Size '\n' = 1 := by decide
        have hwithin := hnext '\n' (by simpa [hback] using hnewline)
        rw [byteLength_nil] at hline
        omega

/-- The line of each offset is the one that holds it. -/
theorem exists_isLine_lineAt {text : Text} {offset : Nat} (h : offset ≤ text.byteLength) :
    ∃ before row after, IsLine text before row after ∧
      text.lineAt offset = 1 + (text.takeBytes offset).count '\n' ∧
      text.lineSpan (text.lineAt offset) = (before.byteLength, (before ++ row).byteLength) ∧
      before.byteLength ≤ offset ∧ offset ≤ (before ++ row).byteLength := by
  obtain ⟨back, htext, hle, hnext⟩ := exists_takeBytes_append h
  obtain ⟨before, row, after, hline, hstart, hstop⟩ := exists_isLine (text.takeBytes offset) back
  rw [← htext] at hline
  have hwithin := hline.le_byteLength_of_within htext hstop hle h hnext
  have hnumber := hline.lineAt_eq (Nat.le_trans hstart hle) hwithin
  refine ⟨before, row, after, hline, ?_, ?_, Nat.le_trans hstart hle, ?_⟩
  · have hfront := lineAt_byteLength (text.takeBytes offset) back
    rw [← htext] at hfront
    rw [hnumber, ← hline.lineAt_eq hstart hstop, hfront]
  · rw [hnumber, hline.lineSpan_eq]
  · rwa [byteLength_append]

end Place

/-- Lines are found exactly. -/
structure HasExactLines (text : Text) : Prop where
  /-- A binary search among the starts of the lines finds the line. -/
  searched : ∀ offset, text.lineAt offset = lineFound (search text.lineStarts offset)
  counted : ∀ offset ≤ text.byteLength,
    text.lineAt offset = 1 + (text.takeBytes offset).count '\n'
  /-- The span of the line holds the offset. It begins at the start of the text or right behind a
  newline, ends at the end of the text or at a newline, and has no newline inside. -/
  spanned : ∀ offset ≤ text.byteLength, ∃ before row after, IsLine text before row after ∧
    text.lineSpan (text.lineAt offset) = (before.byteLength, (before ++ row).byteLength) ∧
    before.byteLength ≤ offset ∧ offset ≤ (before ++ row).byteLength
  monotone : ∀ earlier later, earlier ≤ later → text.lineAt earlier ≤ text.lineAt later
  disjoint : ∀ earlier later, 1 ≤ earlier → earlier < later → later ≤ 1 + text.count '\n' →
    (text.lineSpan earlier).2 < (text.lineSpan later).1

/-- In every text, every offset has its line, and every line has its place. -/
theorem hasExactLines (text : Text) : HasExactLines text where
  searched := lineAt_eq_lineFound text
  counted := fun offset h => by
    obtain ⟨-, -, -, -, hcounted, -⟩ := exists_isLine_lineAt h
    exact hcounted
  spanned := fun offset h => by
    obtain ⟨before, row, after, hline, -, hspan⟩ := exists_isLine_lineAt h
    exact ⟨before, row, after, hline, hspan⟩
  monotone := fun _ _ h => lineAt_mono text h
  disjoint := fun _ _ hfirst horder hlast => lineSpan_snd_lt_lineSpan_fst hfirst horder hlast

-- A newline lies on the line that it ends, and the last one opens one more line.
example : [0, 1, 2, 5, 6, 10].map (lineAt "a\nbb\n\nccc\n") = [1, 1, 2, 3, 4, 5] := by decide

end MemberSplit.Text
