import MemberSplit.Brace.Basic

/-!
# Brace balance

How far the braces of a text are from matching: the depth at its end, and the lowest depth on the
way there.
-/

namespace MemberSplit

/-- The net and the lowest running depth of some braces. -/
structure Balance where
  /-- Opening braces minus closing braces. -/
  net : Int
  /-- The lowest depth; below zero if something is closed that was opened before the text. -/
  lowest : Int
  deriving DecidableEq, Repr

namespace Balance

/-- The balance of no braces. -/
def zero : Balance := ⟨0, 0⟩

/-- Goes past one more brace. -/
def push (balance : Balance) : Brace → Balance
  | .opening => { balance with net := balance.net + 1 }
  | .closing => ⟨balance.net - 1, min balance.lowest (balance.net - 1)⟩

/-- Whether every brace has its partner. -/
def isBalanced (balance : Balance) : Bool :=
  balance.net = 0 && 0 ≤ balance.lowest

/-- The balance of the braces that count in a text. -/
def ofText (mode : ScanMode) (text : Text) : Balance :=
  (Brace.list mode text).foldl push zero

end Balance

end MemberSplit
