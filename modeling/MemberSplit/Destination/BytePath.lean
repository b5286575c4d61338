import MemberSplit.Destination.Location
import MemberSplit.Text.Utf8

/-!
# Paths of any bytes

To the operating system a path is bytes, and these need not be UTF-8. Only slashes and dots mean
something in a path, and they are bytes of their own; so such a path is cut, joined and seen from
another one like the text whose characters are its bytes. A reference is text, though, and where a
name is not UTF-8 it has replacement characters instead.
-/

namespace MemberSplit

namespace Path

/-- A path of any bytes, each of which is one character. -/
def ofBytes (bytes : Bytes) : Path :=
  bytes.map fun byte => Char.ofNat byte.toNat

/-- The bytes that such a path is made of. -/
def toBytes (path : Path) : Bytes :=
  path.map fun c => UInt8.ofNat c.toNat

/-- A path that is text, as a path of bytes. -/
def ofText (path : Path) : Path :=
  ofBytes (Utf8.encode path)

/-- How a part of a path of bytes shows in a text. -/
def shown (part : Path) : Text :=
  Utf8.decodeLossy (toBytes part)

/-- A component with another name. -/
def Component.rename (spell : Text → Text) : Component → Component
  | .root => .root
  | .current => .current
  | .parent => .parent
  | .name part => .name (spell part)

end Path

namespace Location

/-- How a component of a path of bytes is written in a reference. -/
def shownPart? : Path.Component → Option Text
  | .root => some []
  | .current => none
  | .parent => some ".."
  | .name name => some (Path.shown name)

/-- The path by which the input refers to a file, if the paths are of bytes. -/
def shownPathFromInput (directory path : Path) : Path :=
  Text.joinWith ['/'] ((directory.components ++ path.components).filterMap shownPart?)

/-- The line by which the input refers to a file, if the paths are of bytes. -/
def shownReference (template : Text) (directory path : Path) : Text :=
  template.replace Config.pathPlace (shownPathFromInput directory path)

end Location

end MemberSplit
