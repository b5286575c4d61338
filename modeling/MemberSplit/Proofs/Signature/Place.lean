import MemberSplit.Proofs.Text.Cut
import MemberSplit.Proofs.Text.Line
import MemberSplit.Signature.Basic

/-!
# Where signatures stand

Each signature that is found in a source stands there: the source is what comes before the
signature, its head, the brace of its body, and what comes behind that brace. It begins a line.
-/

namespace MemberSplit

namespace Signature

/-- The signature is part of the source at the offset that it tells, on a new line. -/
def StandsIn (signature : Signature) (source : Text) : Prop :=
  ∃ before, source = before ++ (signature.head ++ '{' :: signature.afterBrace) ∧
    before.byteLength = signature.start ∧ before.EndsLine

namespace Pattern

/-- The search keeps track of what lies behind it: every signature stands in the whole source, not
only in the text that is left. -/
theorem standsIn_of_mem_signaturesFrom {pattern : Pattern} {offset : Nat} {atLineStart : Bool}
    {text : Text} (before : Text) (hoffset : before.byteLength = offset)
    (hline : atLineStart = true → before.EndsLine) {signature : Signature}
    (hmem : signature ∈ pattern.signaturesFrom offset atLineStart text) :
    signature.StandsIn (before ++ text) := by
  fun_induction signaturesFrom pattern offset atLineStart text generalizing before
  case case1 => simp at hmem
  case case2 offset atLineStart c rest parts afterBrace hmatch head ih =>
      -- A match is tried at the start of a line only.
      obtain ⟨hstart, hmatch⟩ : atLineStart = true ∧
          pattern.match? (c :: rest) = some (parts, afterBrace) := by
        split at hmatch
        next hstart => exact ⟨hstart, hmatch⟩
        next => simp at hmatch
      have htext : head ++ '{' :: afterBrace = c :: rest := match?_append hmatch
      rcases List.mem_cons.mp hmem with rfl | hlater
      · exact ⟨before, by rw [htext], hoffset, hline hstart⟩
      · have hbehind : (before ++ (head ++ ['{'])).byteLength =
            offset + head.byteLength + 1 := by
          simp only [Text.byteLength_append, hoffset, Text.byteLength]
          have hbrace : Char.utf8Size '{' = 1 := by decide
          omega
        have hlater' := ih _ hbehind (by simp) hlater
        rwa [show before ++ (head ++ ['{']) ++ afterBrace = before ++ (c :: rest) by
          simp [← htext]] at hlater'
  case case3 offset atLineStart c rest hnone ih =>
      have hbehind : (before ++ [c]).byteLength = offset + c.utf8Size := by
        simp [Text.byteLength_append, hoffset, Text.byteLength]
      have hlater := ih _ hbehind (fun hnewline => .inr (by simpa using hnewline)) hmem
      simpa using hlater

/-- Every signature of a source stands in it. -/
theorem standsIn_of_mem_signatures {pattern : Pattern} {source : Text} {signature : Signature}
    (hmem : signature ∈ pattern.signatures source) : signature.StandsIn source :=
  standsIn_of_mem_signaturesFrom [] rfl (fun _ => .inl rfl) hmem

end Pattern

end Signature

end MemberSplit
