import MemberSplit.Brace.Basic

/-!
# Blocks

A block runs from an opening brace to the brace that closes it. What comes after that brace, and
what comes before the block, has no say in where it ends.
-/

namespace MemberSplit.Block

open Lexical (Context)

/-- Splits text after the brace that closes the block, where `depth` inner blocks are open before
the text. -/
def splitFrom? (mode : ScanMode) (context : Context) (depth : Nat) : Text → Option (Text × Text)
  | [] => none
  | c :: rest =>
    let after := Brace.nextContext mode context c rest.head?
    let further (depth : Nat) :=
      (splitFrom? mode after depth rest).map (Text.extend [c])
    match Brace.ofChar? context c with
    | none => further depth
    | some .opening => further (depth + 1)
    | some .closing =>
      match depth with
      | 0 => some ([c], rest)
      | depth + 1 => further depth

/-- Splits the text that follows an opening brace after the brace that closes it. -/
def split? (mode : ScanMode) (afterOpening : Text) : Option (Text × Text) :=
  splitFrom? mode .start 0 afterOpening

/-- Byte offset of the brace that closes the one at offset `opening`, if there is one there. -/
def closingBrace? (text : Text) (opening : Nat) (mode : ScanMode) : Option Nat :=
  match text.dropBytes opening with
  | '{' :: rest => (split? mode rest).map fun (inner, _) => opening + inner.byteLength
  | _ => none

end MemberSplit.Block
