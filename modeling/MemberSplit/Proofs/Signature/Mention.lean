import MemberSplit.Config.Validation
import MemberSplit.Proofs.Signature.Character
import MemberSplit.Proofs.Text.Cut
import MemberSplit.Signature.Basic

/-!
# Where the owner is mentioned

A mention of the owner is made of word characters and colons. So a text without a mention stays
without one when other text is put behind it, unless it ends in such a character; and a mention
ends before the first other character behind its start.
-/

namespace MemberSplit

namespace Config

theorem isWordChar_of_isIdentifier {text : Text} (h : isIdentifier text = true) :
    ∀ c ∈ text, isWordChar c = true := by
  cases text with
  | nil => cases h
  | cons c rest =>
      obtain ⟨hstart, hrest⟩ := Bool.and_eq_true_iff.mp h
      intro d hmem
      rcases List.mem_cons.mp hmem with rfl | hlater
      · exact isWordChar_of_isIdentStart hstart
      · exact isWordChar_of_isAlphanum (List.all_eq_true.mp hrest d hlater)

/-- A character of a qualified name is part of a component or one of the colons between two. -/
theorem isWordChar_or_of_splitQualified {pending : Bool} {text : Text}
    (hcolon : pending = true → text.head? = some ':')
    (h : ∀ piece ∈ splitQualified pending text, ∀ c ∈ piece, isWordChar c = true) :
    ∀ c ∈ text, isWordChar c = true ∨ c = ':' := by
  induction text generalizing pending with
  | nil => simp
  | cons c rest ih =>
      cases pending with
      | true =>
          obtain rfl : c = ':' := by simpa using hcolon rfl
          have hrest := ih (fun hpending => by cases hpending) h
          simpa using hrest
      | false =>
          unfold splitQualified at h
          split at h
          next hseparator =>
            obtain ⟨hc, hnext⟩ := Bool.and_eq_true_iff.mp hseparator
            have hrest := ih (fun _ => of_decide_eq_true hnext) fun piece hmem =>
              h piece (List.mem_cons_of_mem _ hmem)
            have hfirst : isWordChar c = true ∨ c = ':' := .inr (of_decide_eq_true hc)
            simpa [hfirst] using hrest
          next =>
            -- The character goes in front of the first component behind it.
            have hnone : false = true → rest.head? = some ':' := fun hfalse => by cases hfalse
            have hpieces : isWordChar c = true ∧
                ∀ piece ∈ splitQualified false rest, ∀ d ∈ piece, isWordChar d = true := by
              cases hsplit : splitQualified false rest with
              | nil =>
                  rw [hsplit] at h
                  exact ⟨h [c] List.mem_cons_self c List.mem_cons_self, by simp⟩
              | cons piece pieces =>
                  rw [hsplit] at h
                  refine ⟨h _ List.mem_cons_self c List.mem_cons_self, ?_⟩
                  intro other hmem d hd
                  rcases List.mem_cons.mp hmem with rfl | hlater
                  · exact h _ List.mem_cons_self d (List.mem_cons_of_mem _ hd)
                  · exact h other (List.mem_cons_of_mem _ hlater) d hd
            have hrest := ih hnone hpieces.2
            simpa [hpieces.1] using hrest

theorem isIdentStart_of_isQualifiedName {text : Text} (h : isQualifiedName text = true) :
    ∃ c rest, text = c :: rest ∧ isIdentStart c = true := by
  unfold isQualifiedName at h
  cases text with
  | nil => cases h
  | cons c rest =>
      refine ⟨c, rest, rfl, ?_⟩
      unfold splitQualified at h
      split at h
      next => cases h
      next =>
        cases hsplit : splitQualified false rest with
        | nil =>
            rw [hsplit] at h
            have hfirst := List.all_eq_true.mp h [c] List.mem_cons_self
            exact (Bool.and_eq_true_iff.mp hfirst).1
        | cons piece pieces =>
            rw [hsplit] at h
            have hfirst := List.all_eq_true.mp h (c :: piece) List.mem_cons_self
            exact (Bool.and_eq_true_iff.mp hfirst).1

end Config

/-- The character in front of what stands behind a text that begins with `c`. -/
theorem Text.getLast?_cons_or (c : Char) (rest : Text) (before : Option Char) :
    (c :: rest).getLast?.or before = rest.getLast?.or (some c) := by
  rw [List.getLast?_cons, Option.or_some, Option.some_or]

namespace Signature.Pattern

/-- The owner is written with word characters and colons, and begins like an identifier. -/
structure IsProper (pattern : Pattern) : Prop where
  first : ∃ c rest, pattern.owner = c :: rest ∧ isIdentStart c = true
  chars : ∀ c ∈ pattern.owner, isWordChar c = true ∨ c = ':'

/-- No mention of the owner begins in the text, which stands behind `before`. -/
def Unmentioned (pattern : Pattern) : (before : Option Char) → Text → Prop
  | _, [] => True
  | before, c :: rest =>
    Text.afterWord? pattern.qualifier before (c :: rest) = none ∧
      Unmentioned pattern (some c) rest

variable {pattern : Pattern} {before before' : Option Char} {text front back behind : Text}

theorem isProper_of_isQualifiedName (h : Config.isQualifiedName pattern.owner = true) :
    pattern.IsProper := by
  refine ⟨Config.isIdentStart_of_isQualifiedName h, ?_⟩
  have hnone : false = true → pattern.owner.head? = some ':' := fun hfalse => by cases hfalse
  apply Config.isWordChar_or_of_splitQualified hnone
  intro piece hmem
  exact Config.isWordChar_of_isIdentifier (List.all_eq_true.mp h piece hmem)

theorem isProper_of_isIdentifier (h : Config.isIdentifier pattern.owner = true) :
    pattern.IsProper := by
  refine ⟨?_, fun c hmem => .inl (Config.isWordChar_of_isIdentifier h c hmem)⟩
  cases howner : pattern.owner with
  | nil =>
      rw [howner] at h
      cases h
  | cons c rest =>
      rw [howner] at h
      exact ⟨c, rest, rfl, (Bool.and_eq_true_iff.mp h).1⟩

theorem IsProper.isWordChar_or_of_mem (h : pattern.IsProper) {c : Char}
    (hmem : c ∈ pattern.qualifier) : isWordChar c = true ∨ c = ':' := by
  rcases List.mem_append.mp hmem with howner | hcolons
  · exact h.chars c howner
  · right
    simpa using hcolons

theorem IsProper.not_mem_of_ne (h : pattern.IsProper) {c : Char} (hword : isWordChar c = false)
    (hcolon : c ≠ ':') : c ∉ pattern.qualifier := by
  intro hmem
  rcases h.isWordChar_or_of_mem hmem with hyes | heq
  · rw [hword] at hyes
    cases hyes
  · exact hcolon heq

/-- What cannot stand in a return type cannot stand in a mention. -/
theorem IsProper.not_mem_qualifier (h : pattern.IsProper) {c : Char}
    (hc : pattern.isResultChar c = false) : c ∉ pattern.qualifier := by
  apply h.not_mem_of_ne
  · rw [Bool.eq_false_iff]
    intro hword
    simp [isResultChar, hword] at hc
  · rintro rfl
    simp [isResultChar] at hc

theorem afterWord?_eq_none_of_not_isPrefix (h : ¬pattern.qualifier <+: text) :
    Text.afterWord? pattern.qualifier before text = none := by
  unfold Text.afterWord?
  split
  · cases hdrop : text.dropLead? pattern.qualifier with
    | none => rfl
    | some rest => exact absurd ⟨rest, Text.dropLead?_eq_some_iff.mp hdrop⟩ h
  · rfl

theorem not_isPrefix_of_not_mem {c : Char} (hc : c ∉ pattern.qualifier) :
    ¬pattern.qualifier <+: c :: text := by
  rintro ⟨rest, hrest⟩
  cases hqualifier : pattern.qualifier with
  | nil => simp [qualifier] at hqualifier
  | cons d others =>
      rw [hqualifier] at hrest hc
      obtain ⟨rfl, -⟩ := List.cons.inj hrest
      exact hc List.mem_cons_self

theorem afterWord?_congr (h : Text.inWord before = Text.inWord before') :
    Text.afterWord? pattern.qualifier before text =
      Text.afterWord? pattern.qualifier before' text := by
  rw [Text.afterWord?, Text.afterWord?, Text.atBoundary, Text.atBoundary, h]

/-- A mention that begins in a text is no longer than the text, if the text ends in a character that
no mention holds. -/
theorem afterWord?_append (hne : text ≠ [])
    (hlast : ∀ c, text.getLast? = some c → c ∉ pattern.qualifier)
    (h : Text.afterWord? pattern.qualifier before text = none) (behind : Text) :
    Text.afterWord? pattern.qualifier before (text ++ behind) = none := by
  unfold Text.afterWord? at h ⊢
  have hhead : Text.atBoundary before (text ++ behind) = Text.atBoundary before text := by
    rw [Text.atBoundary, Text.atBoundary, List.head?_append_of_ne_nil _ hne]
  rw [hhead]
  split at h
  next hboundary =>
    rw [if_pos hboundary]
    cases hdrop : Text.dropLead? (text ++ behind) pattern.qualifier with
    | none => rfl
    | some rest =>
        exfalso
        have hsplit := Text.dropLead?_eq_some_iff.mp hdrop
        rcases List.append_eq_append_iff.mp hsplit with ⟨inner, htext, -⟩ | ⟨inner, hword, -⟩
        · rw [Text.dropLead?_eq_some_iff.mpr htext.symm] at h
          cases h
        · cases hinner : inner with
          | nil =>
              have htext : pattern.qualifier ++ [] = text := by
                rw [hword, hinner, List.append_nil, List.append_nil]
              rw [Text.dropLead?_eq_some_iff.mpr htext] at h
              cases h
          | cons d others =>
              obtain ⟨c, hc⟩ := Option.isSome_iff_exists.mp (List.getLast?_isSome.mpr hne)
              apply hlast c hc
              rw [hword]
              exact List.mem_append_left _ (List.mem_of_getLast? hc)
  next hboundary => rw [if_neg hboundary]

theorem unmentioned_of_mentionsFrom {offset : Nat}
    (h : pattern.mentionsFrom offset before 0 text = []) : pattern.Unmentioned before text := by
  induction text generalizing offset before with
  | nil => exact trivial
  | cons c rest ih =>
      simp only [mentionsFrom] at h
      split at h
      next => cases h
      next hnone => exact ⟨by simpa using hnone, ih h⟩

theorem unmentioned_of_mentions (h : pattern.mentions text = []) :
    pattern.Unmentioned none text :=
  unmentioned_of_mentionsFrom h

theorem unmentioned_of_not_isInfix (h : ¬pattern.qualifier <:+: text) :
    pattern.Unmentioned before text := by
  induction text generalizing before with
  | nil => exact trivial
  | cons c rest ih =>
      refine ⟨afterWord?_eq_none_of_not_isPrefix fun hleads => h hleads.isInfix, ?_⟩
      apply ih
      intro hinside
      exact h (hinside.trans (List.suffix_cons c rest).isInfix)

theorem Unmentioned.congr (hbefore : Text.inWord before = Text.inWord before')
    (h : pattern.Unmentioned before text) : pattern.Unmentioned before' text := by
  cases text with
  | nil => exact trivial
  | cons c rest => exact ⟨(afterWord?_congr hbefore).symm.trans h.1, h.2⟩

theorem Unmentioned.left (h : pattern.Unmentioned before (front ++ back)) :
    pattern.Unmentioned before front := by
  induction front generalizing before with
  | nil => exact trivial
  | cons c rest ih =>
      refine ⟨?_, ih h.2⟩
      rw [Option.eq_none_iff_forall_ne_some]
      intro behind hsome
      obtain ⟨hboundary, hdrop⟩ := Option.ite_none_right_eq_some.mp hsome
      have hlonger : Text.dropLead? (c :: (rest ++ back)) pattern.qualifier =
          some (behind ++ back) := by
        rw [Text.dropLead?_eq_some_iff, ← List.append_assoc, Text.dropLead?_eq_some_iff.mp hdrop]
        rfl
      have hboundary' : Text.atBoundary before (c :: (rest ++ back)) = true := hboundary
      have hnone : Text.afterWord? pattern.qualifier before (c :: (rest ++ back)) = none := h.1
      rw [Text.afterWord?, if_pos hboundary', hlonger] at hnone
      cases hnone

theorem Unmentioned.of_append (h : pattern.Unmentioned before (front ++ back)) :
    pattern.Unmentioned (front.getLast?.or before) back := by
  induction front generalizing before with
  | nil => exact h
  | cons c rest ih =>
      rw [Text.getLast?_cons_or]
      exact ih h.2

/-- Going through a text without a mention finds none, and goes on behind the text. -/
theorem mentionsFrom_append (hlast : ∀ c, text.getLast? = some c → c ∉ pattern.qualifier)
    (h : pattern.Unmentioned before text) (offset : Nat) (behind : Text) :
    pattern.mentionsFrom offset before 0 (text ++ behind) =
      pattern.mentionsFrom (offset + text.byteLength) (text.getLast?.or before) 0 behind := by
  induction text generalizing offset before with
  | nil => rfl
  | cons c rest ih =>
      have hnone := afterWord?_append (List.cons_ne_nil c rest) hlast h.1 behind
      have hrest : ∀ d, rest.getLast? = some d → d ∉ pattern.qualifier := by
        intro d hd
        apply hlast
        rw [List.getLast?_cons, hd]
        rfl
      have hlater := ih hrest h.2 (offset + c.utf8Size)
      rw [List.cons_append] at hnone ⊢
      simp only [mentionsFrom, hnone, Option.isSome_none, if_neg Bool.false_ne_true]
      rw [hlater, Text.getLast?_cons_or, Text.byteLength, ← Nat.add_assoc]

theorem length_qualifier_le {c : Char} (hc : c ∉ pattern.qualifier)
    (h : (Text.afterWord? pattern.qualifier before (text ++ c :: behind)).isSome) :
    pattern.qualifier.length ≤ text.length := by
  obtain ⟨rest, hsome⟩ := Option.isSome_iff_exists.mp h
  obtain ⟨-, hdrop⟩ := Option.ite_none_right_eq_some.mp hsome
  have hsplit := Text.dropLead?_eq_some_iff.mp hdrop
  rcases List.append_eq_append_iff.mp hsplit with ⟨inner, htext, -⟩ | ⟨inner, hword, hinner⟩
  · rw [htext, List.length_append]
    omega
  · cases inner with
    | nil => rw [hword, List.append_nil]
    | cons d others =>
        obtain ⟨rfl, -⟩ := List.cons.inj hinner
        exact absurd (by simp [hword]) hc

/-- A mention in a text begins in the part in front of a character that no mention holds, or behind
that part. -/
theorem mem_mentionsFrom_cases {c : Char} (hc : c ∉ pattern.qualifier) {offset pending place : Nat}
    (hpending : pending ≤ text.length)
    (hmem : place ∈ pattern.mentionsFrom offset before pending (text ++ c :: behind)) :
    (offset ≤ place ∧ place < offset + text.byteLength) ∨
      place ∈ pattern.mentionsFrom (offset + text.byteLength) (text.getLast?.or before) 0
        (c :: behind) := by
  induction text generalizing offset before pending with
  | nil =>
      obtain rfl : pending = 0 := by simpa using hpending
      exact .inr hmem
  | cons d rest ih =>
      have hsize := Char.utf8Size_pos d
      have hlater : ∀ {pending' : Nat}, pending' ≤ rest.length →
          place ∈ pattern.mentionsFrom (offset + d.utf8Size) (some d) pending'
            (rest ++ c :: behind) →
          (offset ≤ place ∧ place < offset + Text.byteLength (d :: rest)) ∨
            place ∈ pattern.mentionsFrom (offset + Text.byteLength (d :: rest))
              ((d :: rest).getLast?.or before) 0 (c :: behind) := by
        intro pending' hle hrest
        rw [Text.getLast?_cons_or, Text.byteLength, ← Nat.add_assoc]
        rcases ih hle hrest with hinside | hbehind
        · left
          omega
        · exact .inr hbehind
      rw [List.cons_append] at hmem
      cases pending with
      | succ pending =>
          simp only [mentionsFrom] at hmem
          exact hlater (Nat.le_of_succ_le_succ hpending) hmem
      | zero =>
          simp only [mentionsFrom] at hmem
          split at hmem
          next hmention =>
            rcases List.mem_cons.mp hmem with rfl | hrest
            · left
              rw [Text.byteLength]
              omega
            · have hlength : pattern.qualifier.length ≤ (d :: rest).length :=
                length_qualifier_le hc hmention
              rw [List.length_cons] at hlength
              exact hlater (by omega) hrest
          next => exact hlater (Nat.zero_le _) hmem

end Signature.Pattern

end MemberSplit
