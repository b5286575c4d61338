import MemberSplit.Proofs.Checked.Skip
import MemberSplit.Proofs.Checked.Slice
import MemberSplit.Proofs.Lexical.FirstCode

/-!
# The first code among bytes

The loop that looks for the first code of a text comes to no place within a character. So the text
can be cut wherever it does so, and what is found is what reading the characters finds.
-/

namespace MemberSplit

namespace Lexical

variable {c : Char} {rest : Text}

/-- Whether a digit stands in front of a text has no part in where its code begins. -/
theorem firstCodeFrom?_code (afterDigit : Bool) (offset : Nat) (text : Text) :
    firstCodeFrom? (.code afterDigit) offset text = firstCodeFrom? (.code false) offset text := by
  cases text with
  | nil => rfl
  | cons c rest =>
      rw [firstCodeFrom?, firstCodeFrom?]
      by_cases hc : c = '\''
      · subst hc
        rfl
      · have hnext : (Context.code afterDigit).next c rest.head? =
            (Context.code false).next c rest.head? := by
          simp only [Context.next, hc, if_false]
        rw [hnext]
        rfl

theorem firstCodeFrom?_of_opensComment (h : opensComment c rest.head? = true) (offset : Nat) :
    firstCodeFrom? (.code false) offset (c :: rest) =
      firstCodeFrom? ((Context.code false).next c rest.head?) (offset + c.utf8Size) rest := by
  rw [firstCodeFrom?, h]
  simp

theorem firstCodeFrom?_of_code (hfiller : isFiller c = false)
    (hcomment : opensComment c rest.head? = false) (offset : Nat) :
    firstCodeFrom? (.code false) offset (c :: rest) = some offset := by
  simp [firstCodeFrom?, Context.isCode, hfiller, hcomment]

end Lexical

namespace Checked

open Lexical (Context firstCodeFrom? isFiller)

variable {text front rest : Text} {c d : Char}

/-- What is skipped is no code. -/
theorem Skips.firstCodeFrom?_eq {context : Context} {front' rest' : Text}
    (h : Skips front context rest front' rest') :
    firstCodeFrom? context front.byteLength rest =
      firstCodeFrom? (.code false) front'.byteLength rest' := by
  induction h with
  | ends => rfl
  | code => exact Lexical.firstCodeFrom?_code _ _ _
  | newline hcontext hnext =>
      rw [Lexical.firstCodeFrom?_cons_of_not_isCode hcontext, hnext,
        Lexical.firstCodeFrom?_cons_of_isFiller (by decide)]
  | skip hcontext hrest ih =>
      rw [Lexical.firstCodeFrom?_cons_of_not_isCode hcontext, ← ih, byteLength_concat]

section Steps

variable {place : Nat}

theorem firstCodeFrom_of_none (h : byteAt? (Utf8.encode text) place = none) :
    firstCodeFrom text place = .ok none := by
  rw [firstCodeFrom]
  split
  next => rfl
  next byte hbyte => cases h.symm.trans hbyte

theorem firstCodeFrom_of_isAsciiBlank (hd : byteAt? (Utf8.encode text) place = some d)
    (hblank : isAsciiBlank d = true) :
    firstCodeFrom text place = firstCodeFrom text (place + 1) := by
  rw [firstCodeFrom, hd]
  exact if_pos hblank

theorem firstCodeFrom_of_comment {stop : Nat} (hd : byteAt? (Utf8.encode text) place = some d)
    (hblank : isAsciiBlank d = false)
    (hcomment : commentEnd? (Utf8.encode text) place = .ok (some stop)) :
    firstCodeFrom text place = firstCodeFrom text stop := by
  rw [firstCodeFrom, hd]
  simp only [hblank]
  rw [if_neg Bool.false_ne_true]
  split
  next fault hfault => cases hcomment.symm.trans hfault
  next other hother =>
    obtain rfl := Option.some.inj (Except.ok.inj (hcomment.symm.trans hother))
    rfl
  next hnone => cases hcomment.symm.trans hnone

theorem firstCodeFrom_of_slice (hd : byteAt? (Utf8.encode text) place = some d)
    (hblank : isAsciiBlank d = false)
    (hcomment : commentEnd? (Utf8.encode text) place = .ok none)
    (hslice : slice text place text.byteLength = .ok (c :: rest)) :
    firstCodeFrom text place =
      if isFiller c then firstCodeFrom text (place + c.utf8Size) else .ok (some place) := by
  rw [firstCodeFrom, hd]
  simp only [hblank, hslice]
  rw [if_neg Bool.false_ne_true]
  split
  next fault hfault => cases hcomment.symm.trans hfault
  next other hother => cases hcomment.symm.trans hother
  next => rfl

end Steps

section Results

theorem toNat_lt_of_isAsciiBlank (h : isAsciiBlank c = true) : c.toNat < 0x80 := by
  simp only [isAsciiBlank, Bool.or_eq_true, decide_eq_true_eq] at h
  obtain (((rfl | rfl) | rfl) | rfl) | rfl := h <;> decide

theorem isFiller_of_isAsciiBlank (h : isAsciiBlank c = true) : isFiller c = true := by
  simp only [isAsciiBlank, Bool.or_eq_true, decide_eq_true_eq] at h
  obtain (((rfl | rfl) | rfl) | rfl) | rfl := h <;> decide

/-- What is found behind a cut of a text is what reading the characters finds there. -/
theorem firstCodeFrom_eq_ok (htext : text = front ++ rest) :
    firstCodeFrom text front.byteLength =
      .ok (firstCodeFrom? (.code false) front.byteLength rest) := by
  -- The loop goes past a comment at once, so the induction is on the length.
  induction hlength : rest.length using Nat.strongRecOn generalizing front rest with
  | ind length ih =>
  cases rest with
  | nil => exact firstCodeFrom_of_none (byteAt?_of_nil htext)
  | cons c others =>
      have hrest := htext.trans (List.append_cons ..)
      rw [List.length_cons] at hlength
      obtain ⟨d, hd, hcode⟩ := exists_byteAt?_of_cons htext
      cases hblank : isAsciiBlank d with
      | true =>
          have hascii := toNat_lt_of_isAsciiBlank hblank
          obtain rfl : d = c := hcode.resolve_right fun h => by omega
          have hothers := ih others.length (by omega) hrest rfl
          rw [byteLength_concat_of_lt hascii] at hothers
          rw [firstCodeFrom_of_isAsciiBlank hd hblank, hothers,
            Lexical.firstCodeFrom?_cons_of_isFiller (isFiller_of_isAsciiBlank hblank),
            (Utf8.encodeChar_of_lt hascii).2]
      | false =>
          cases hopens : Lexical.opensComment c others.head? with
          | true =>
              obtain ⟨stop, hstop, front', rest', hskips, rfl⟩ :=
                exists_commentEnd? htext hopens false
              have hshort := hskips.length_le
              rw [firstCodeFrom_of_comment hd hblank hstop,
                ih rest'.length (by omega) (hrest.trans hskips.append_eq) rfl,
                Lexical.firstCodeFrom?_of_opensComment hopens, ← byteLength_concat,
                hskips.firstCodeFrom?_eq]
          | false =>
              have hslice : slice text front.byteLength text.byteLength = .ok (c :: others) := by
                refine slice_eq_ok_iff.mpr ⟨front, [], ?_, rfl, by rw [htext]⟩
                rw [List.append_nil, htext]
              rw [firstCodeFrom_of_slice hd hblank (commentEnd?_eq_none htext hopens) hslice]
              cases hfiller : isFiller c with
              | true =>
                  rw [if_pos rfl, Lexical.firstCodeFrom?_cons_of_isFiller hfiller,
                    ← byteLength_concat]
                  exact ih others.length (by omega) hrest rfl
              | false =>
                  rw [Lexical.firstCodeFrom?_of_code hfiller hopens]
                  rfl

theorem firstCode?_eq_ok (text : Text) : firstCode? text = .ok (Lexical.firstCode? text) :=
  firstCodeFrom_eq_ok (List.nil_append text).symm

end Results

end Checked

end MemberSplit
