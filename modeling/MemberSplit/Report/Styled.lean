import MemberSplit.Text.Basic

/-!
# Styled text

Text for a terminal is a row of spans, some of them bold or coloured. It is rendered plainly or
with ANSI escape sequences.
-/

namespace MemberSplit.Styled

/-- A colour of a terminal. -/
inductive Color where
  | red
  | green
  | yellow
  | blue
  | cyan
  deriving DecidableEq, Repr

/-- The digit of a colour in an escape sequence. -/
def Color.digit : Color → Char
  | .red => '1'
  | .green => '2'
  | .yellow => '3'
  | .blue => '4'
  | .cyan => '6'

/-- How a span looks. -/
structure Style where
  bold : Bool := false
  color : Option Color := none
  deriving DecidableEq, Repr

/-- Text of one look; without a style it looks like its surroundings. -/
structure Span where
  style : Option Style
  text : Text
  deriving DecidableEq, Repr

/-- Text without a style. -/
def plain (parts : List Text) : Span :=
  ⟨none, Text.concat parts⟩

/-- Text with a style. -/
def styled (style : Style) (text : Text) : Span :=
  ⟨some style, text⟩

/-- The escape sequence with a code. -/
def escape (code : Text) : Text :=
  '\x1b' :: '[' :: code ++ ['m']

/-- The escape sequences that begin a style, after a reset. -/
def Style.opening (style : Style) : Text :=
  let bold := if style.bold then escape "1" else []
  let color := match style.color with
    | some color => escape ['3', color.digit]
    | none => []
  escape "0" ++ bold ++ color

/-- A span with escape sequences around it. -/
def Span.ansi (span : Span) : Text :=
  match span.style with
  | none => span.text
  | some style => style.opening ++ span.text ++ escape "0"

/-- The text of the spans, without their styles. -/
def text (spans : List Span) : Text :=
  spans.flatMap Span.text

/-- The text of the spans, with escape sequences for their styles. -/
def ansi (spans : List Span) : Text :=
  spans.flatMap Span.ansi

end MemberSplit.Styled
