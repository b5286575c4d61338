import MemberSplit.Toml.Lexeme

/-!
# Numbers of TOML

How numbers are spelled. No setting takes a number, so a spelling is told apart from other words and
what it is worth is not asked for: it can be larger than any machine word.
-/

namespace MemberSplit.Toml

/-- Whether a text is a row of digits. One underscore can stand between two of them. -/
def isDigits (isDigit : Char → Bool) (text : Text) : Bool :=
  (Text.splitBy (· == '_') text).all fun group => !group.isEmpty && group.all isDigit

/-- The text without the sign at its start. -/
def dropSign : Text → Text
  | '+' :: rest | '-' :: rest => rest
  | text => text

/-- Whether a text is a whole number without a sign; no zero stands in front of other digits. -/
def isWhole (text : Text) : Bool :=
  isDigits Char.isDigit text && (text.head? ≠ some '0' || text.length = 1)

/-- Whether a text is a decimal number without a sign. A fraction and then a power of ten can follow
the whole part. -/
def isDecimal (text : Text) : Bool :=
  let (factor, power) := text.span fun c => c != 'e' && c != 'E'
  let (whole, fraction) := factor.span (· != '.')
  isWhole whole && (fraction.isEmpty || isDigits Char.isDigit fraction.tail) &&
    (power.isEmpty || isDigits Char.isDigit (dropSign power.tail))

/-- The digits of the base that a letter behind a zero stands for. -/
def baseDigit? (mark : Char) : Option (Char → Bool) :=
  if mark = 'x' then some fun c => (hexValue? c).isSome
  else if mark = 'o' then some fun c => '0' ≤ c && c ≤ '7'
  else if mark = 'b' then some fun c => c == '0' || c == '1'
  else none

/-- Whether a text is a number with a mark for its base. Its digits can be missing, for its worth is
not asked for. -/
def isBased : Text → Bool
  | '0' :: mark :: digits =>
    (baseDigit? mark).any fun isDigit => digits.isEmpty || isDigits isDigit digits
  | _ => false

/-- Whether a text spells a number. -/
def isNumber (text : Text) : Bool :=
  let unsigned := dropSign text
  isBased text || isDecimal unsigned || unsigned = "inf" || unsigned = "nan"

end MemberSplit.Toml
