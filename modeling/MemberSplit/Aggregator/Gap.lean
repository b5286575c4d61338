import MemberSplit.Definition.Basic
import MemberSplit.Diagnostic
import MemberSplit.Lexical.FirstCode
import MemberSplit.Log
import MemberSplit.Text.Excerpt
import MemberSplit.Text.Line

/-!
# Gaps behind definitions

The aggregator keeps nothing that stands behind a definition. A gap may be blank, it may hold
comments that travel with the next definition or are dropped, or it holds code, which would be
lost.
-/

namespace MemberSplit

/-- What stands between a definition and the next one, or the end of the source. -/
inductive GapContent where
  | blank
  /-- Comments that travel with the next definition. -/
  | carried
  /-- Comments that are in no file. -/
  | dropped
  /-- Code, on the given line with the given text. -/
  | code (line : Nat) (text : Text)
  deriving DecidableEq, Repr

/-- A gap that begins at a byte offset. -/
structure Gap where
  start : Nat
  content : GapContent
  deriving DecidableEq, Repr

namespace Gap

/-- The content of the gap from `start` to `stop`, where `carries` says whether the next
definition has taken comments along. -/
def read (source : Text) (start stop : Nat) (carries : Bool) : Gap :=
  let segment := source.slice start stop
  let content : GapContent := match Lexical.firstCode? segment with
    | some offset =>
      let line := source.lineAt (start + offset)
      .code line (source.lineText line)
    | none =>
      if carries then .carried
      else if segment.trim.isEmpty then .blank
      else .dropped
  { start, content }

/-- The gap behind each of some definitions, which are in the order of the source. -/
def list (source : Text) : List Definition → List Gap
  | [] => []
  | [last] => [read source last.stop source.byteLength false]
  | definition :: next :: rest =>
    read source definition.stop next.start (!next.comment.isEmpty) :: list source (next :: rest)

/-- The warning for a gap with code. -/
def diagnostic? (gap : Gap) : Option Diagnostic :=
  match gap.content with
  | .code line text => some (.orphanedCode line (text.excerpt Text.excerptLimit))
  | _ => none

/-- The number of gaps whose comments are in no file. -/
def countDropped (gaps : List Gap) : Nat :=
  gaps.countP fun gap => gap.content = .dropped

/-- What the log says about a gap. -/
def log? (gap : Gap) : Option Log.Line :=
  match gap.content with
  | .code line _ =>
    some (Log.line .warn ["line ", Text.ofNat line, ": code outside any extracted function"])
  | .dropped =>
    some (Log.line .debug ["dropping comment block after offset ", Text.ofNat gap.start])
  | .blank | .carried => none

end Gap

end MemberSplit
