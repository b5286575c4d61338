import MemberSplit.Aggregator.Gap
import MemberSplit.Checked.Scan
import MemberSplit.Extraction.Basic

/-!
# Extraction with checks

The extraction of definitions and the look into the gaps behind them, where each piece of the source
is cut out by its offsets and each line is looked up by its number.
-/

namespace MemberSplit.Checked

/-- The comments of a gap between two definitions, as far as they can travel with the later one. -/
def travellingComment (mode : ScanMode) (gap : Text) : Except Fault Text := do
  let code? ← firstCode? gap
  if code?.isSome then return []
  let comment := gap.trim
  if comment.isEmpty then return []
  let braces ← balance mode comment
  return if braces.isBalanced then comment ++ ['\n'] else []

/-- The comments that a definition takes along out of the gap in front of it. There is such a gap
behind the definition that has been extracted last. -/
def commentBefore (mode : ScanMode) (source : Text) (previousStop : Option Nat) (start : Nat) :
    Except Fault Text :=
  match previousStop with
  | none => .ok []
  | some stop => do
    let gap ← slice source stop start
    travellingComment mode gap

/-- The definition of a signature whose body is closed by the brace at `closing`. -/
def readDefinition (extractor : Extractor) (source : Text) (previousStop : Option Nat)
    (signature : Signature) (closing : Nat) : Except Fault Definition := do
  let comment ← commentBefore extractor.mode source previousStop signature.start
  let head ← slice source signature.start signature.openingBrace
  let body ← slice source signature.openingBrace (closing + 1)
  return {
    owner := extractor.pattern.owner
    name := signature.name
    paramList := signature.paramList
    isConst := signature.isConst
    comment
    head
    body
    start := signature.start
    line := source.lineAt signature.start }

/-- The candidates for some signatures of a source, where `previousStop` is the offset behind the
definition that has been extracted last. -/
def candidatesFrom (extractor : Extractor) (source : Text) (previousStop : Option Nat) :
    List Signature → Except Fault (List Candidate)
  | [] => .ok []
  | signature :: others => do
    let line := source.lineAt signature.start
    if signature.start < previousStop.getD 0 then
      let later ← candidatesFrom extractor source previousStop others
      return ⟨signature, line, .nested⟩ :: later
    else
      match ← closingBrace? source signature.openingBrace extractor.mode with
      | none =>
        let later ← candidatesFrom extractor source previousStop others
        return ⟨signature, line, .unterminated⟩ :: later
      | some closing =>
        let definition ← readDefinition extractor source previousStop signature closing
        let later ← candidatesFrom extractor source (some (closing + 1)) others
        return ⟨signature, line, .extracted definition⟩ :: later

/-- The lines that mention the owner where no candidate covers it, without remarks. -/
def unrecognizedLines (extractor : Extractor) (source : Text) (candidates : List Candidate) :
    Except Fault (List (Nat × Text)) := do
  let uncovered := (extractor.pattern.mentions source).filter fun offset =>
    !candidates.any fun candidate => candidate.covers offset
  let lines := (uncovered.map source.lineAt).eraseReps
  let rows ← lines.mapM fun line => (lineText source line).map (line, ·)
  return rows.filter fun (_, row) => !Extractor.isRemark row

/-- Finds the definitions of a source. -/
def extract (extractor : Extractor) (source : Text) : Except Fault Extraction := do
  let candidates ← candidatesFrom extractor source none (extractor.pattern.signatures source)
  let unrecognized ← unrecognizedLines extractor source candidates
  return { owner := extractor.pattern.owner, candidates, unrecognized }

/-- The text in front of the first definition. -/
def lead (source : Text) (extraction : Extraction) : Except Fault Text :=
  slice source 0 (extraction.leadLength source.byteLength)

/-- The content of the gap from `start` to `stop`, where `carries` says whether the next
definition has taken comments along. -/
def readGap (source : Text) (start stop : Nat) (carries : Bool) : Except Fault Gap := do
  let segment ← slice source start stop
  match ← firstCode? segment with
  | some offset =>
    let line := source.lineAt (start + offset)
    let row ← lineText source line
    return ⟨start, .code line row⟩
  | none =>
    return ⟨start, if carries then .carried else if segment.trim.isEmpty then .blank else .dropped⟩

/-- The gap behind each of some definitions, which are in the order of the source. -/
def gaps (source : Text) : List Definition → Except Fault (List Gap)
  | [] => .ok []
  | [last] => do
    let gap ← readGap source last.stop source.byteLength false
    return [gap]
  | definition :: next :: rest => do
    let gap ← readGap source definition.stop next.start (!next.comment.isEmpty)
    let others ← gaps source (next :: rest)
    return gap :: others

end MemberSplit.Checked
