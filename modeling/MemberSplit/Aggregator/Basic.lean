import MemberSplit.Text.Basic

/-!
# The aggregator

After a split the input is replaced by its aggregator: what stood before the first definition, and
a reference to each file that a definition went to.
-/

namespace MemberSplit

/-- What an input is replaced with. -/
structure Aggregator where
  /-- Lines at the top. -/
  banner : List Text
  /-- What stood before the first definition. -/
  lead : Text
  /-- A line for each file. -/
  references : List Text
  deriving DecidableEq, Repr

namespace Aggregator

/-- Lines, each ended by a newline. -/
def closeLines (lines : List Text) : Text :=
  lines.flatMap fun line => line ++ ['\n']

/-- The text of the aggregator. The references start on a line of their own. -/
def text (aggregator : Aggregator) : Text :=
  let opening := closeLines aggregator.banner ++ aggregator.lead
  let separator : Text :=
    if opening.isEmpty || opening.getLast? = some '\n' then [] else ['\n']
  opening ++ separator ++ closeLines aggregator.references

end Aggregator

end MemberSplit
