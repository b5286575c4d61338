import MemberSplit.Proofs.Signature.Carried
import MemberSplit.Proofs.Signature.Place
import MemberSplit.Proofs.Signature.Silence

/-!
# The signatures in front of a cut

Cut a text and put another one behind the cut. The search finds the signatures in front of the cut
again, if each of them has its brace there, and it finds no other ones if there is no brace behind
the cut.
-/

namespace MemberSplit.Signature.Pattern

variable {pattern : Pattern} {offset offset' : Nat} {atLineStart : Bool} {text : Text}
  {behind behind' : Text}

theorem le_start_of_mem_signaturesFrom {signature : Signature}
    (hmem : signature ∈ pattern.signaturesFrom offset atLineStart text) :
    offset ≤ signature.start := by
  fun_induction signaturesFrom pattern offset atLineStart text
  case case1 => cases hmem
  case case2 offset atLineStart c rest parts afterBrace hmatch head ih =>
      rcases List.mem_cons.mp hmem with rfl | hlater
      · exact Nat.le_refl offset
      · have hbehind := ih hlater
        omega
  case case3 offset atLineStart c rest _ ih =>
      have hbehind := ih hmem
      omega

/-- No signature begins before the brace of an earlier one. -/
theorem pairwise_signaturesFrom (pattern : Pattern) (offset : Nat) (atLineStart : Bool)
    (text : Text) :
    (pattern.signaturesFrom offset atLineStart text).Pairwise fun earlier later =>
      earlier.openingBrace < later.start := by
  fun_induction signaturesFrom pattern offset atLineStart text
  case case1 => exact .nil
  case case2 offset atLineStart c rest parts afterBrace hmatch head ih =>
      refine List.pairwise_cons.mpr ⟨?_, ih⟩
      intro later hlater
      have hbehind := le_start_of_mem_signaturesFrom hlater
      exact hbehind
  case case3 ih => exact ih

/-- Of two signatures the one that begins first has its brace in front of the other. -/
theorem openingBrace_lt_start {source : Text} {first second : Signature}
    (hfirst : first ∈ pattern.signatures source) (hsecond : second ∈ pattern.signatures source)
    (hstart : first.start < second.start) : first.openingBrace < second.start := by
  have hpairwise : (pattern.signatures source).Pairwise fun earlier later =>
      earlier.openingBrace < later.start := pattern.pairwise_signaturesFrom 0 true source
  obtain ⟨front, back, hlist⟩ := List.append_of_mem hsecond
  rw [hlist] at hfirst hpairwise
  obtain ⟨-, hback, hfront⟩ := List.pairwise_append.mp hpairwise
  rcases List.mem_append.mp hfirst with hmem | hmem
  · exact hfront first hmem second List.mem_cons_self
  · rcases List.mem_cons.mp hmem with rfl | hmem
    · exact absurd hstart (Nat.lt_irrefl _)
    · have hlater := (List.pairwise_cons.mp hback).1 first hmem
      rw [Signature.openingBrace] at hlater
      omega

theorem signaturesFrom_eq_nil (htext : '{' ∉ text) :
    pattern.signaturesFrom offset atLineStart text = [] := by
  fun_induction signaturesFrom pattern offset atLineStart text
  case case1 => rfl
  case case2 offset atLineStart c rest parts afterBrace hmatch head ih =>
      obtain ⟨-, hmatch⟩ := Option.ite_none_right_eq_some.mp hmatch
      exact absurd ((opens_match? _ _ _ hmatch).subset List.mem_cons_self) htext
  case case3 ih => exact ih fun hmem => htext (List.mem_cons_of_mem _ hmem)

/-- A signature whose brace stands in front of a cut leaves the rest up to the cut, and what is
behind it. -/
theorem exists_middle_of_match? {parts : Parts} {afterBrace : Text}
    (h : pattern.match? (text ++ behind) = some (parts, afterBrace))
    (hshort : (parts.text pattern).byteLength < text.byteLength) :
    ∃ middle, text = parts.text pattern ++ '{' :: middle ∧ afterBrace = middle ++ behind := by
  have hcut : (parts.text pattern ++ ['{']) ++ afterBrace = text ++ behind := by
    rw [← match?_append h, List.append_assoc]
    rfl
  have hlength : (parts.text pattern ++ ['{']).byteLength ≤ text.byteLength := by
    have hone : Char.utf8Size '{' = 1 := by decide
    rw [Text.byteLength_append, Text.byteLength, Text.byteLength_nil, hone]
    omega
  obtain ⟨middle, htext, hafter⟩ := Text.exists_between hcut hlength
  exact ⟨middle, by rw [htext, List.append_assoc]; rfl, hafter⟩

theorem byteLength_of_cut {parts : Parts} {middle : Text}
    (hcut : text = parts.text pattern ++ '{' :: middle) :
    offset + text.byteLength =
      offset + (parts.text pattern).byteLength + 1 + middle.byteLength := by
  have hone : Char.utf8Size '{' = 1 := by decide
  rw [hcut, Text.byteLength_append, Text.byteLength, hone]
  omega

theorem lt_add_byteLength_cons (offset : Nat) (c : Char) (rest : Text) :
    offset < offset + Text.byteLength (c :: rest) := by
  have hpos := Char.utf8Size_pos c
  rw [Text.byteLength]
  omega

/-- The signatures that begin in front of a cut have their braces there too. -/
def EndBefore (pattern : Pattern) (behind : Text) (offset : Nat) (atLineStart : Bool)
    (text : Text) : Prop :=
  ∀ signature ∈ pattern.signaturesFrom offset atLineStart (text ++ behind),
    signature.start < offset + text.byteLength → signature.openingBrace < offset + text.byteLength

/-- In front of the cut, the search goes on behind the brace of the signature that it has found, or
behind one character. -/
theorem EndBefore.cases {c : Char} {rest : Text}
    (h : pattern.EndBefore behind offset atLineStart (c :: rest)) :
    (∃ parts middle, atLineStart = true ∧ c :: rest = parts.text pattern ++ '{' :: middle ∧
      pattern.match? (c :: rest ++ behind) = some (parts, middle ++ behind) ∧
      pattern.EndBefore behind (offset + (parts.text pattern).byteLength + 1) false middle) ∨
    (atLineStart = true → pattern.match? (c :: (rest ++ behind)) = none) ∧
      pattern.EndBefore behind (offset + c.utf8Size) (c == '\n') rest := by
  by_cases hmatch : ∃ found, atLineStart = true ∧
      pattern.match? (c :: rest ++ behind) = some found
  · obtain ⟨⟨parts, afterBrace⟩, rfl, hold⟩ := hmatch
    unfold EndBefore at h
    rw [signaturesFrom_of_match? hold] at h
    obtain ⟨hfirst, hlater⟩ := List.forall_mem_cons.mp h
    have hshort := hfirst (lt_add_byteLength_cons offset c rest)
    obtain ⟨middle, hcut, rfl⟩ :=
      exists_middle_of_match? hold (Nat.add_lt_add_iff_left.mp hshort)
    rw [byteLength_of_cut hcut] at hlater
    exact .inl ⟨parts, middle, rfl, hcut, hold, hlater⟩
  · have hold : atLineStart = true → pattern.match? (c :: (rest ++ behind)) = none := by
      intro hstart
      rw [Option.eq_none_iff_forall_ne_some]
      exact fun found hfound => hmatch ⟨found, hstart, hfound⟩
    have hbytes : offset + Text.byteLength (c :: rest) =
        offset + c.utf8Size + Text.byteLength rest := (Nat.add_assoc _ _ _).symm
    unfold EndBefore at h
    rw [List.cons_append, signaturesFrom_cons_of_none hold, hbytes] at h
    exact .inr ⟨hold, h⟩

/-- If no signature reaches over a cut, the search goes on at the cut. -/
theorem EndBefore.exists_append (h : pattern.EndBefore behind offset atLineStart text) :
    ∃ earlier, pattern.signaturesFrom offset atLineStart (text ++ behind) =
      earlier ++ pattern.signaturesFrom (offset + text.byteLength)
        (lineStartsBehind atLineStart text) behind := by
  induction hlength : text.length using Nat.strongRecOn
    generalizing offset atLineStart text with
  | ind length ih =>
      subst hlength
      cases text with
      | nil => exact ⟨[], rfl⟩
      | cons c rest =>
          rcases h.cases with ⟨parts, middle, rfl, hcut, hold, hmiddle⟩ | ⟨hold, hrest⟩
          · have hshort : middle.length < (c :: rest).length := by
              rw [hcut, List.length_append, List.length_cons]
              omega
            obtain ⟨earlier, hearlier⟩ := ih middle.length hshort hmiddle rfl
            have hline : lineStartsBehind true (c :: rest) = lineStartsBehind false middle := by
              rw [hcut, lineStartsBehind_append, lineStartsBehind_cons]
              rfl
            rw [signaturesFrom_of_match? hold, hearlier, hline, byteLength_of_cut hcut]
            exact ⟨_ :: earlier, rfl⟩
          · obtain ⟨earlier, hearlier⟩ := ih rest.length (by simp) hrest rfl
            rw [List.cons_append, signaturesFrom_cons_of_none hold, hearlier,
              lineStartsBehind_cons, Text.byteLength, ← Nat.add_assoc]
            exact ⟨earlier, rfl⟩

/-- Two signatures with the same text up to a cut, and then what stands behind it. -/
def AgreeUpTo (behind behind' : Text) (old new : Signature) : Prop :=
  old.head = new.head ∧
    ∃ rest, old.afterBrace = rest ++ behind ∧ new.afterBrace = rest ++ behind'

/-- The signatures that begin in front of a cut are found again with another text behind it. -/
theorem forall₂_signaturesFrom (hbehind : '{' ∉ behind') {offset : Nat} (offset' : Nat)
    {atLineStart : Bool} {text : Text}
    (hfront : pattern.EndBefore behind offset atLineStart text) :
    List.Forall₂ (AgreeUpTo behind behind')
      ((pattern.signaturesFrom offset atLineStart (text ++ behind)).filter fun signature =>
        signature.start < offset + text.byteLength)
      (pattern.signaturesFrom offset' atLineStart (text ++ behind')) := by
  induction hlength : text.length using Nat.strongRecOn
    generalizing offset offset' atLineStart text with
  | ind length ih =>
      subst hlength
      cases text with
      | nil =>
          have hnone : (pattern.signaturesFrom offset atLineStart ([] ++ behind)).filter
              (fun signature => signature.start < offset + Text.byteLength []) = [] := by
            rw [List.filter_eq_nil_iff]
            intro signature hmem hstart
            exact Nat.not_lt.mpr (le_start_of_mem_signaturesFrom hmem) (of_decide_eq_true hstart)
          rw [hnone, List.nil_append, signaturesFrom_eq_nil hbehind]
          exact .nil
      | cons c rest =>
          have hcarries : Carries behind behind' (pattern.match? (c :: rest ++ behind))
              (pattern.match? (c :: rest ++ behind')) := carries_match? hbehind (c :: rest)
          rcases hfront.cases with ⟨parts, middle, rfl, hcut, hold, hmiddle⟩ | ⟨hold, hrest⟩
          · have hshort : middle.length < (c :: rest).length := by
              rw [hcut, List.length_append, List.length_cons]
              omega
            have hnew := hcarries.2 parts middle hold
            have hlater := ih middle.length hshort (offset' + (parts.text pattern).byteLength + 1)
              hmiddle rfl
            rw [signaturesFrom_of_match? hold, signaturesFrom_of_match? hnew,
              List.filter_cons_of_pos]
            · refine .cons ⟨rfl, middle, rfl, rfl⟩ ?_
              rw [byteLength_of_cut hcut]
              exact hlater
            · exact decide_eq_true (lt_add_byteLength_cons offset c rest)
          · have hnew : atLineStart = true → pattern.match? (c :: (rest ++ behind')) = none :=
              fun hstart => hcarries.1 (hold hstart)
            rw [List.cons_append, signaturesFrom_cons_of_none hold, List.cons_append,
              signaturesFrom_cons_of_none hnew, Text.byteLength, ← Nat.add_assoc]
            exact ih rest.length (by simp) _ hrest rfl

end MemberSplit.Signature.Pattern
