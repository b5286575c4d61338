import MemberSplit.Brace.Balance
import MemberSplit.Destination.FileName
import MemberSplit.Destination.Preamble

/-!
# Destination files

The definitions that share a path share a file, in the order of the source. Of two definitions of
one overload in one file the first is kept and the later one is a repetition. The files come in the
order in which the source first needs them.
-/

namespace MemberSplit

/-- A definition with the path of its file and its overload key. -/
structure Placement where
  classified : Classified
  path : Path
  key : Text
  deriving DecidableEq, Repr

/-- A definition that is dropped because its file has the overload already. -/
structure Repetition where
  placement : Placement
  /-- The definition that is kept. -/
  kept : Placement
  deriving DecidableEq, Repr

/-- A file to be written. -/
structure Destination where
  /-- The group of the first definition. -/
  group : Group
  /-- The path, seen from the output directory. -/
  path : Path
  preamble : List Text
  definitions : List Definition
  deriving DecidableEq, Repr

/-- The files to be written, and the definitions that are in none of them. -/
structure Grouping where
  destinations : List Destination
  repetitions : List Repetition
  deriving DecidableEq, Repr

namespace Placement

/-- The definition that is placed. -/
def definition (placement : Placement) : Definition :=
  placement.classified.definition

/-- Whether two definitions are the same overload for the same file. -/
def collides (placement other : Placement) : Bool :=
  placement.path = other.path && placement.key = other.key

/-- Places a classified definition. -/
def ofClassified (namer : FileNaming) (classified : Classified) : Placement where
  classified
  path := namer.path classified.group
  key := classified.definition.overload

/-- The placements that collide with none before them, where `kept` are those kept so far. -/
def firsts (kept : List Placement) : List Placement → List Placement
  | [] => []
  | placement :: rest =>
    if kept.any placement.collides then firsts kept rest
    else placement :: firsts (kept ++ [placement]) rest

/-- The placements that collide with one before them, where `kept` are those kept so far. -/
def repetitions (kept : List Placement) : List Placement → List Repetition
  | [] => []
  | placement :: rest =>
    match kept.find? placement.collides with
    | some first => ⟨placement, first⟩ :: repetitions kept rest
    | none => repetitions (kept ++ [placement]) rest

end Placement

namespace Destination

/-- The text of the file: the preamble and each definition, with a blank line between any two. -/
def text (destination : Destination) : Text :=
  let opening : Text :=
    if destination.preamble.isEmpty then []
    else Text.concat [Text.joinWith ['\n'] destination.preamble, "\n\n"]
  Text.concat
    [opening, Text.joinWith "\n\n" (destination.definitions.map Definition.text), "\n"]

/-- The qualified names of the definitions in the file. -/
def memberNames (destination : Destination) : List Text :=
  destination.definitions.map Definition.qualifiedName

/-- The balance of the braces of the file. -/
def balance (mode : ScanMode) (destination : Destination) : Balance :=
  Balance.ofText mode destination.text

/-- The file for a path with the placements that belong there. -/
def ofPlacements? (preamble : Preamble) (placements : List Placement) (path : Path) :
    Option Destination :=
  match placements.filter fun placement => placement.path = path with
  | [] => none
  | first :: rest =>
    some
      { group := first.classified.group
        path
        preamble := preamble.linesOf first.classified.group
        definitions := (first :: rest).map Placement.definition }

end Destination

namespace Repetition

/-- The diagnostic for a definition that is dropped. -/
def diagnostic (repetition : Repetition) : Diagnostic :=
  let definition := repetition.placement.definition
  .duplicate definition.qualifiedName definition.line repetition.kept.definition.line
    repetition.placement.path

/-- What the log says about a definition that is dropped. -/
def log (repetition : Repetition) : Log.Line :=
  Log.line .warn ["line ", Text.ofNat repetition.placement.definition.line, ": `",
    repetition.placement.key, "` already defined at line ",
    Text.ofNat repetition.kept.definition.line, ", dropping the later definition"]

end Repetition

namespace Grouping

/-- Distributes definitions over files. -/
def ofClassified (namer : FileNaming) (preamble : Preamble) (list : List Classified) : Grouping :=
  let placements := list.map (Placement.ofClassified namer)
  let kept := Placement.firsts [] placements
  let paths := (kept.map Placement.path).eraseDups
  { destinations := paths.filterMap (Destination.ofPlacements? preamble kept)
    repetitions := Placement.repetitions [] placements }

end Grouping

end MemberSplit
