import MemberSplit.Config.Reading
import MemberSplit.Log
import MemberSplit.Text.Utf8

/-!
# Reading the files of a run

A run reads its configuration, its input and a header. What a file holds is given by a reader, so
that all decisions are made without asking for more.
-/

namespace MemberSplit

/-- The contents of the file at a path, or why it cannot be read. -/
abbrev Reader := Path → Except OsError Bytes

/-- A source file as text. -/
structure SourceFile where
  path : Path
  text : Text
  /-- Whether the file is not UTF-8, so that parts of it were replaced. -/
  lossy : Bool
  deriving DecidableEq, Repr

/-- Reads a source file. -/
def SourceFile.read (read : Reader) (path : Path) : Except Failure SourceFile :=
  match read path with
  | .error error => .error (.readInput path error)
  | .ok bytes =>
    .ok { path, text := Utf8.decodeLossy bytes, lossy := !Utf8.isValid bytes }

namespace Reader

/-- Whether there is a file at the path. -/
def hasFile (read : Reader) (path : Path) : Bool :=
  (read path).isOk

end Reader

namespace Header

/-- The extensions of headers, in the order in which they are tried. -/
def extensions : List Text :=
  ["h", "hpp", "hh", "hxx"]

/-- Where the header for an input may be: beside it, under the same name. -/
def candidates (input : Path) : List Path :=
  (extensions.map input.withExtension).filter fun path => path.components ≠ input.components

/-- The header for an input. -/
def infer? (read : Reader) (input : Path) : Option Path :=
  (candidates input).find? read.hasFile

end Header

namespace Config

/-- The name of a configuration file. -/
def fileName : Text := "cleave.toml"

/-- The configuration file beside an input. -/
def fileBeside (input : Path) : Path :=
  match input.parent? with
  | some parent => parent.join fileName
  | none => fileName

/-- The configuration file for an input: the given one, or the one beside the input if it is
there. -/
def locate? (read : Reader) (given : Option Path) (input : Path) : Option Path :=
  match given with
  | some path => some path
  | none => if read.hasFile (fileBeside input) then some (fileBeside input) else none

/-- Reads and checks a configuration file. -/
def load (read : Reader) (path : Path) : Except Failure Config :=
  match read path with
  | .error error => .error (.readConfig path error)
  | .ok bytes =>
    match Utf8.decode? bytes with
    | none => .error (.readConfig path .notText)
    | some text => parse text path

end Config

end MemberSplit
