import MemberSplit.Text.Basic

/-!
# Log lines

What a run tells while it goes on, each line with a level. Which levels are shown is decided where
the lines are printed.
-/

namespace MemberSplit.Log

/-- How important a log line is, the most important first. -/
inductive Level where
  | error
  | warn
  | info
  | debug
  | trace
  deriving DecidableEq, Repr

/-- The rank of a level; what is more important ranks lower. -/
def Level.rank : Level → Nat
  | .error => 0
  | .warn => 1
  | .info => 2
  | .debug => 3
  | .trace => 4

/-- The word that a log line shows for its level. -/
def Level.label : Level → Text
  | .error => "ERROR"
  | .warn => "WARN"
  | .info => "INFO"
  | .debug => "DEBUG"
  | .trace => "TRACE"

/-- One log line. -/
structure Line where
  level : Level
  message : Text
  deriving DecidableEq, Repr

/-- A line of a given level, with its message in parts. -/
def line (level : Level) (parts : List Text) : Line :=
  ⟨level, Text.concat parts⟩

/-- The lines that are as important as `limit` or more. -/
def upTo (limit : Level) (lines : List Line) : List Line :=
  lines.filter fun line => line.level.rank ≤ limit.rank

/-- The digits of a number to the base sixteen. -/
def hex (value : Nat) : Text :=
  Nat.toDigits 16 value

/-- Bell, backspace, form feed, escape and delete: a terminal may obey them. -/
def isCommand (c : Char) : Bool :=
  ['\x07', '\x08', '\x0c', '\x1b', '\x7f'].contains c

/-- Whether a terminal may read the character as an escape and a letter. -/
def isShortCommand (c : Char) : Bool :=
  0x80 ≤ c.toNat && c.toNat ≤ 0x9F

/-- The character, or its code if a terminal may obey it instead of showing it. -/
def disarm (c : Char) : Text :=
  if isCommand c then "\\x" ++ (hex c.toNat).leftpad 2 '0'
  else if isShortCommand c then "\\u\x7b" ++ hex c.toNat ++ ['\x7d']
  else [c]

/-- The line as it is printed. A message can hold text from files, so it is shown without anything
that a terminal may obey. -/
def Line.text (line : Line) : Text :=
  line.level.label ++ ' ' :: line.message.flatMap disarm

end MemberSplit.Log
