import MemberSplit.CommandLine.Switch

/-!
# Reading a command line

The words of a command line are read from left to right: options, their values, and one input. An
option is written with two dashes and its name, or with one dash and its letter, and then letters
can share the dash. Behind two dashes that stand alone, every word is an input.
-/

namespace MemberSplit.CommandLine

/-- Why a command line makes no sense. -/
inductive Misuse where
  | unknownOption (word : Text)
  | secondInput (word : Text)
  | emptyInput
  | noInput
  /-- The value of an option is missing. -/
  | noValue (shown : Text)
  /-- An option that stands alone has a value. -/
  | needlessValue (shown value : Text)
  | refused (shown : Text) (refusal : Refusal)
  | quietAndVerbose
  deriving DecidableEq, Repr

/-- What ends the reading of a command line early. -/
inductive Stop where
  | tell (notice : Notice)
  | misuse (misuse : Misuse)
  deriving DecidableEq, Repr

/-- What a command line asks for. -/
structure Arguments where
  input : Path
  settings : Settings := {}
  deriving DecidableEq

/-- An option that waits for its value. -/
structure Pending where
  /-- The option as messages show it. -/
  shown : Text
  change : Text → Change

/-- What has been read of a command line. -/
structure Progress where
  input : Option Path := none
  settings : Settings := {}
  pending : Option Pending := none
  /-- Whether only inputs can follow. -/
  inputsOnly : Bool := false

namespace Progress

/-- Has an option change the settings; a change that is refused ends the reading. -/
def apply (progress : Progress) (shown : Text) (change : Change) : Except Stop Progress :=
  match change progress.settings with
  | .ok settings => .ok { progress with settings, pending := none }
  | .error refusal => .error (.misuse (.refused shown refusal))

/-- Reads an input. -/
def readInput (progress : Progress) (word : Text) : Except Stop Progress :=
  if progress.input.isSome then .error (.misuse (.secondInput word))
  else if word.isEmpty then .error (.misuse .emptyInput)
  else .ok { progress with input := some word }

/-- Reads an option that is written with its name, and the value that is attached to it. -/
def readNamed (progress : Progress) (name : Text) (value : Option Text) :
    Except Stop Progress :=
  match Switch.named? name with
  | none => .error (.misuse (.unknownOption (Text.concat ["--", name])))
  | some switch =>
    match switch.effect, value with
    | .value _ change, some value => progress.apply switch.shown (change value)
    | .value _ change, none => .ok { progress with pending := some ⟨switch.shown, change⟩ }
    | _, some value => .error (.misuse (.needlessValue switch.shown value))
    | .mark change, none => progress.apply switch.shown change
    | .tell notice, none => .error (.tell notice)

/-- Reads options that are written with their letters. What follows the letter of an option with a
value is that value, and an equals sign may stand between the two. -/
def readLetters (progress : Progress) : List Char → Except Stop Progress
  | [] => .ok progress
  | letter :: rest =>
    match Switch.lettered? letter with
    | none => .error (.misuse (.unknownOption ['-', letter]))
    | some switch =>
      match switch.effect with
      | .tell notice => .error (.tell notice)
      | .mark change =>
        match progress.apply switch.shown change with
        | .ok next => readLetters next rest
        | .error stop => .error stop
      | .value _ change =>
        if rest.isEmpty then .ok { progress with pending := some ⟨switch.shown, change⟩ }
        else progress.apply switch.shown (change ((Text.dropLead? rest "=").getD rest))

/-- Whether a word is written like an option; a single dash is not. -/
def looksLikeOption (word : Text) : Bool :=
  word.head? = some '-' && 1 < word.length

/-- Splits a word at its first equals sign. -/
def splitValue (word : Text) : Text × Option Text :=
  let name := word.takeWhile (· ≠ '=')
  (name, Text.dropLead? (word.drop name.length) "=")

/-- Reads a word where an option or an input can stand. -/
def readFree (progress : Progress) (word : Text) : Except Stop Progress :=
  if word = "--" then .ok { progress with inputsOnly := true }
  else if !looksLikeOption word then progress.readInput word
  else
    match Text.dropLead? word "--" with
    | some rest =>
      let (name, value) := splitValue rest
      progress.readNamed name value
    | none => progress.readLetters word.tail

/-- Reads one word. -/
def readWord (progress : Progress) (word : Text) : Except Stop Progress :=
  if progress.inputsOnly then progress.readInput word
  else
    match progress.pending with
    | none => progress.readFree word
    | some pending =>
      if looksLikeOption word then .error (.misuse (.noValue pending.shown))
      else progress.apply pending.shown (pending.change word)

/-- What the words ask for when there are no more. -/
def finish (progress : Progress) : Except Stop Arguments :=
  match progress.pending, progress.input with
  | some pending, _ => .error (.misuse (.noValue pending.shown))
  | none, none => .error (.misuse .noInput)
  | none, some input =>
    if progress.settings.quiet && 0 < progress.settings.verbosity then
      .error (.misuse .quietAndVerbose)
    else .ok { input, settings := progress.settings }

end Progress

namespace Arguments

/-- Reads the words of a command line. -/
def read (words : List Text) : Except Stop Arguments :=
  (words.foldlM Progress.readWord {}).bind Progress.finish

end Arguments

end MemberSplit.CommandLine
