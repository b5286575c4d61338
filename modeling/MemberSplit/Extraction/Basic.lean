import MemberSplit.Brace.Balance
import MemberSplit.Brace.Block
import MemberSplit.Definition.Basic
import MemberSplit.Diagnostic
import MemberSplit.Lexical.FirstCode
import MemberSplit.Log
import MemberSplit.Signature.Basic
import MemberSplit.Text.Excerpt
import MemberSplit.Text.Line

/-!
# Extraction of definitions

Each signature of the source is a candidate with one of three fates: its body is extracted, its
body never closes, or it lies inside a definition that has been extracted. The definitions, the
counts, the diagnostics and the log of an extraction are views of its candidates and of the
mentions of the owner that no candidate covers.
-/

namespace MemberSplit

/-- What becomes of a signature. -/
inductive Fate where
  /-- It lies inside a definition that has been extracted. -/
  | nested
  /-- Its body never closes. -/
  | unterminated
  | extracted (definition : Definition)
  deriving DecidableEq, Repr

/-- A signature, the line it starts on, and what becomes of it. -/
structure Candidate where
  signature : Signature
  line : Nat
  fate : Fate
  deriving DecidableEq, Repr

/-- What is looked for in a source, and how its braces are counted. -/
structure Extractor where
  pattern : Signature.Pattern
  mode : ScanMode
  deriving DecidableEq, Repr

/-- The result of an extraction. -/
structure Extraction where
  /-- The type whose members were looked for. -/
  owner : Text
  /-- The candidates in the order of the source. -/
  candidates : List Candidate
  /-- The lines, with their text, that mention the owner outside all candidates. -/
  unrecognized : List (Nat × Text)
  deriving DecidableEq, Repr

namespace Candidate

/-- The extracted definition. -/
def definition? (candidate : Candidate) : Option Definition :=
  match candidate.fate with
  | .extracted definition => some definition
  | _ => none

/-- The parts of the source that a candidate accounts for: its signature with the brace, and its
definition. -/
def covers (candidate : Candidate) (offset : Nat) : Bool :=
  let signature := candidate.signature
  (signature.start ≤ offset && offset ≤ signature.openingBrace) ||
    candidate.definition?.any fun definition =>
      definition.start ≤ offset && offset < definition.stop

end Candidate

namespace Extractor

/-- The comments of a gap between two definitions, ended by a newline, as far as they can travel
with the later one: nothing if the gap holds code or the comments would unbalance a file. -/
def travellingComment (mode : ScanMode) (gap : Text) : Text :=
  if (Lexical.firstCode? gap).isSome then []
  else
    let comment := gap.trim
    if comment.isEmpty || !(Balance.ofText mode comment).isBalanced then []
    else comment ++ ['\n']

/-- The candidates for some signatures of a source, where `previousStop` is the offset behind the
definition that has been extracted last. -/
def candidatesFrom (extractor : Extractor) (source : Text) (previousStop : Option Nat) :
    List Signature → List Candidate
  | [] => []
  | signature :: others =>
    let line := source.lineAt signature.start
    if signature.start < previousStop.getD 0 then
      ⟨signature, line, .nested⟩ :: candidatesFrom extractor source previousStop others
    else match Block.split? extractor.mode signature.afterBrace with
      | none =>
        ⟨signature, line, .unterminated⟩ :: candidatesFrom extractor source previousStop others
      | some (inner, _) =>
        let definition : Definition :=
          { owner := extractor.pattern.owner
            name := signature.name
            paramList := signature.paramList
            isConst := signature.isConst
            comment := match previousStop with
              | some stop => travellingComment extractor.mode (source.slice stop signature.start)
              | none => []
            head := signature.head
            body := '{' :: inner
            start := signature.start
            line }
        ⟨signature, line, .extracted definition⟩ ::
          candidatesFrom extractor source (some definition.stop) others

/-- The candidates of a source. -/
def candidates (extractor : Extractor) (source : Text) : List Candidate :=
  extractor.candidatesFrom source none (extractor.pattern.signatures source)

/-- Whether a line is a comment, or a directive, or goes on with a block comment. -/
def isRemark (line : Text) : Bool :=
  let inner := line.trimStart
  ["//", "/*", "*", "#"].any fun mark => mark.toList.isPrefixOf inner

/-- The lines that mention the owner where no candidate covers it, without remarks. -/
def unrecognizedLines (extractor : Extractor) (source : Text) (candidates : List Candidate) :
    List (Nat × Text) :=
  let uncovered := (extractor.pattern.mentions source).filter fun offset =>
    !candidates.any fun candidate => candidate.covers offset
  let lines := (uncovered.map source.lineAt).eraseReps
  (lines.map fun line => (line, source.lineText line)).filter fun (_, text) => !isRemark text

/-- Finds the definitions of a source. -/
def extract (extractor : Extractor) (source : Text) : Extraction :=
  let candidates := extractor.candidates source
  { owner := extractor.pattern.owner
    candidates
    unrecognized := extractor.unrecognizedLines source candidates }

end Extractor

namespace Extraction

/-- The extracted definitions, in the order of the source. -/
def definitions (extraction : Extraction) : List Definition :=
  extraction.candidates.filterMap Candidate.definition?

/-- The number of candidates inside extracted definitions. -/
def nested (extraction : Extraction) : Nat :=
  extraction.candidates.countP fun candidate => candidate.fate = .nested

/-- The number of candidates whose body never closes. -/
def unterminated (extraction : Extraction) : Nat :=
  extraction.candidates.countP fun candidate => candidate.fate = .unterminated

/-- Byte offset of the first definition, or the length of the source if there is none. -/
def leadLength (extraction : Extraction) (sourceLength : Nat) : Nat :=
  match extraction.definitions with
  | [] => sourceLength
  | first :: _ => first.start

/-- The name of a candidate with its owner. -/
def nameOf (extraction : Extraction) (candidate : Candidate) : Text :=
  extraction.owner ++ "::" ++ candidate.signature.name

/-- The problems that were met: bodies that never close, then lines that were not recognized. -/
def diagnostics (extraction : Extraction) : List Diagnostic :=
  (extraction.candidates.filterMap fun candidate =>
    if candidate.fate = .unterminated then
      some (.unterminatedBody (extraction.nameOf candidate) candidate.line)
    else none) ++
  extraction.unrecognized.map fun (line, text) =>
    .unrecognizedShape line (text.excerpt Text.excerptLimit)

/-- What the log says about a candidate. -/
def candidateLog (extraction : Extraction) (candidate : Candidate) : Log.Line :=
  let name := extraction.nameOf candidate
  let line := Text.ofNat candidate.line
  match candidate.fate with
  | .nested =>
    Log.line .debug ["line ", line, ": `", name, "` is nested in a previous definition"]
  | .unterminated => Log.line .warn ["line ", line, ": body of `", name, "` never closes"]
  | .extracted definition =>
    Log.line .trace ["line ", line, ": extracted `", name, "` (",
      Text.ofNat (definition.stop - definition.start), " bytes)"]

/-- The log of an extraction. -/
def log (extraction : Extraction) : List Log.Line :=
  extraction.candidates.map extraction.candidateLog ++
  (extraction.unrecognized.map fun (line, text) =>
    Log.line .warn ["line ", Text.ofNat line, ": unrecognized definition shape: ",
      Text.trim text]) ++
  [Log.line .debug ["functions extractor: ", Text.ofNat extraction.candidates.length,
    " candidate(s), ", Text.ofNat extraction.definitions.length, " extracted"]]

end Extraction

end MemberSplit
