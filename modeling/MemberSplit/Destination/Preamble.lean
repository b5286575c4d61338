import MemberSplit.Classification

/-!
# Preambles

The lines at the top of a group's file: the include of the header, the configured lines of the
group, and for the core also the includes of the input. A line that is there already is left out.
-/

namespace MemberSplit

/-- The lines for the files of each group, as far as they do not depend on the group's key. -/
structure Preamble where
  /-- The line that includes the header. -/
  header : Option Text
  lines : Config.Preambles
  deriving DecidableEq, Repr

namespace Preamble

/-- The include lines of a text, without white space around them. -/
def includes (text : Text) : List Text :=
  ((text.splitBy (· == '\n')).map Text.trim).filter fun line => "#include".toList.isPrefixOf line

/-- The line that includes a file. -/
def includeLine (file : Text) : Text :=
  Text.concat ["#include \"", file, "\""]

/-- The preamble lines for a header of the given name and the text `lead` in front of the first
definition. -/
def ofConfig (config : Config) (header : Option Text) (lead : Text) : Preamble where
  header := if config.includesHeader then header.map includeLine else none
  lines :=
    { config.preambles with
      core := config.preambles.core ++ if config.coreKeepsIncludes then includes lead else [] }

/-- The lines without those that equal an earlier one but for white space at the ends. -/
def dropRepeated : (earlier : List Text) → List Text → List Text
  | _, [] => []
  | earlier, line :: rest =>
    let key := Text.trim line
    if earlier.contains key then dropRepeated earlier rest
    else line :: dropRepeated (key :: earlier) rest

/-- The configured lines of a group. -/
def groupLines (lines : Config.Preambles) : Group → List Text
  | .core => lines.core
  | .dispatch _ => lines.dispatch
  | .helper => lines.helper

/-- The lines at the top of a group's file. -/
def linesOf (preamble : Preamble) (group : Group) : List Text :=
  dropRepeated [] (preamble.header.toList ++ groupLines preamble.lines group)

end Preamble

end MemberSplit
