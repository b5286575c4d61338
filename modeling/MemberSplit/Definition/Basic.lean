import MemberSplit.Definition.ParameterType

/-!
# Definitions of member functions

One definition of a member function as it stands in the source: its signature text, its body, and
where it starts. The signature text and the body are kept as they are written, so that moving a
definition to another file loses nothing.
-/

namespace MemberSplit

/-- A definition of a member function. -/
structure Definition where
  /-- The type that the function is a member of. -/
  owner : Text
  name : Text
  /-- The text between the parentheses of the parameters. -/
  paramList : Text
  isConst : Bool
  /-- The comments that travel with the definition, ended by a newline, or nothing. -/
  comment : Text
  /-- The text of the signature, up to the brace of the body. -/
  head : Text
  /-- The text from the opening to the closing brace, both included. -/
  body : Text
  /-- Byte offset in the source. -/
  start : Nat
  /-- Line of the source, counted from one. -/
  line : Nat
  deriving DecidableEq, Repr

namespace Definition

/-- The name with its owner. -/
def qualifiedName (definition : Definition) : Text :=
  definition.owner ++ "::".toList ++ definition.name

/-- The definition as it is written to a file. -/
def text (definition : Definition) : Text :=
  definition.comment ++ definition.head ++ definition.body

/-- Byte offset of the brace that opens the body. -/
def bodyOffset (definition : Definition) : Nat :=
  definition.start + definition.head.byteLength

/-- Byte offset behind the body. -/
def stop (definition : Definition) : Nat :=
  definition.bodyOffset + definition.body.byteLength

/-- The types of the parameters, without names and default values. -/
def parameterTypes (definition : Definition) : List Text :=
  let params := definition.paramList.trim
  if params.isEmpty || params = "void".toList then []
  else (definition.paramList.splitOutside ',').map ParameterType.ofParam

/-- What two definitions of the same overload have in common. -/
def overload (definition : Definition) : Text :=
  definition.qualifiedName ++ '(' :: Text.joinWith [','] definition.parameterTypes ++
    (if definition.isConst then ") const".toList else ")".toList)

/-- The bare type of the first parameter. -/
def baseType? (definition : Definition) : Option Text :=
  definition.parameterTypes.head?.bind fun type =>
    match ParameterType.base type with
    | [] => none
    | base => some base

end Definition

end MemberSplit
