import MemberSplit.Brace.Basic
import MemberSplit.NameSet
import MemberSplit.Path
import MemberSplit.Signature.Layout

/-!
# Configuration

What a run can be told. Every setting has a default, so an absent configuration is the same as an
empty one.
-/

namespace MemberSplit

/-- How the names of core functions are compared. -/
inductive NameMatch where
  /-- The whole name must agree. -/
  | exact
  /-- The entry may stand anywhere in the name. -/
  | substring
  deriving DecidableEq, Repr

namespace Config

/-- Lines at the top of the files of each group. -/
structure Preambles where
  core : List Text := []
  dispatch : List Text := []
  helper : List Text := []
  deriving DecidableEq, Repr

/-- Stands for the owner in a file name template. -/
def ownerPlace : Text := "\x7bowner\x7d"

/-- Stands for the dispatch method in a file name template. -/
def methodPlace : Text := "\x7bmethod\x7d"

/-- Stands for the dispatch key in a file name template. -/
def keyPlace : Text := "\x7bkey\x7d"

/-- Stands for the extension in a file name template. -/
def extensionPlace : Text := "\x7bext\x7d"

/-- Stands for the path of a file in the line that refers to it. -/
def pathPlace : Text := "\x7bpath\x7d"

/-- Templates for file names, seen from the output directory. -/
structure FileNames where
  core : Text := Text.concat [ownerPlace, "_core.", extensionPlace]
  dispatch : Text := Text.concat ["gen_", methodPlace, "_", keyPlace, ".", extensionPlace]
  helper : Text := Text.concat ["helpers/gen_all_helpers.", extensionPlace]
  deriving DecidableEq, Repr

end Config

/-- What controls a run. -/
structure Config where
  /-- The type whose members are split; taken from the name of the input if absent. -/
  owner : Option Text := none
  /-- Where the files go, seen from the directory of the input. -/
  outputDirectory : Path := "generators"
  /-- Names that stay in the core file. -/
  coreFunctions : NameSet := .empty
  coreMatch : NameMatch := .exact
  /-- The method that is overloaded once for each variant type. -/
  dispatchMethod : Text := "visit"
  /-- Variant types whose overloads are helpers. -/
  dispatchExclusions : NameSet := .empty
  /-- Names that are helpers on purpose. -/
  helperFunctions : NameSet := .empty
  layout : Signature.Layout := .wrapped
  scanMode : ScanMode := .literal
  preambles : Config.Preambles := {}
  fileNames : Config.FileNames := {}
  /-- The line that refers to a file, with a place for its path. -/
  referenceTemplate : Text := Text.concat ["#include \"", Config.pathPlace, "\""]
  /-- Lines at the top of the aggregator. -/
  banner : List Text := []
  /-- Whether each file includes the header first. -/
  includesHeader : Bool := true
  /-- Whether the core file includes what the input includes. -/
  coreKeepsIncludes : Bool := true
  deriving DecidableEq

end MemberSplit
