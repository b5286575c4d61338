import MemberSplit.Text.Basic

/-!
# Dates and times of TOML

How dates and times of day are spelled, alone or together, and with an offset from universal time if
both are there. No setting takes one, so a spelling is only told apart from other words. A date must
be a day of the calendar.
-/

namespace MemberSplit.Toml

/-- Reads a number of exactly `count` digits. -/
def fixedNumber? (count : Nat) (text : Text) : Option (Nat × Text) :=
  let digits := text.take count
  if digits.length = count && digits.all Char.isDigit then
    some (digits.foldl (fun value c => value * 10 + (c.toNat - 0x30)) 0, text.drop count)
  else none

/-- Reads a number of two digits, at most `last`. -/
def afterPair? (last : Nat) (text : Text) : Option Text :=
  (fixedNumber? 2 text).bind fun (value, rest) => if value ≤ last then some rest else none

/-- Whether a year has a 29th of February. -/
def isLeapYear (year : Nat) : Bool :=
  year % 4 = 0 && (year % 100 ≠ 0 || year % 400 = 0)

/-- The number of days of a month. -/
def daysIn (year month : Nat) : Nat :=
  if month = 2 then if isLeapYear year then 29 else 28
  else if month ∈ [4, 6, 9, 11] then 30
  else 31

/-- Whether the calendar has a day. -/
def isDay (year month day : Nat) : Bool :=
  1 ≤ month && month ≤ 12 && 1 ≤ day && day ≤ daysIn year month

/-- What follows a date at the start of a text. -/
def afterDate? (text : Text) : Option Text :=
  match fixedNumber? 4 text with
  | some (year, '-' :: rest) =>
    match fixedNumber? 2 rest with
    | some (month, '-' :: rest) =>
      (fixedNumber? 2 rest).bind fun (day, rest) => if isDay year month day then some rest else none
    | _ => none
  | _ => none

/-- What follows hours and minutes at the start of a text. -/
def afterMinutes? (text : Text) : Option Text :=
  match afterPair? 23 text with
  | some (':' :: rest) => afterPair? 59 rest
  | _ => none

/-- What follows a time of day at the start of a text. Seconds can be missing, and there can be a
leap second. -/
def afterTime? (text : Text) : Option Text :=
  match afterMinutes? text with
  | some (':' :: rest) =>
    match afterPair? 60 rest with
    | some ('.' :: fraction) =>
      if fraction.head?.any Char.isDigit then some (fraction.dropWhile Char.isDigit) else none
    | after => after
  | after => after

/-- Whether a text is an offset from universal time. -/
def isOffset : Text → Bool
  | ['Z'] | ['z'] => true
  | '+' :: rest | '-' :: rest => afterMinutes? rest = some []
  | _ => false

/-- Whether a text spells a date, a time of day or both. -/
def isMoment (text : Text) : Bool :=
  match afterDate? text with
  | none => afterTime? text = some []
  | some [] => true
  | some (gap :: time) =>
    (gap == 'T' || gap == 't' || gap == ' ') &&
      (afterTime? time).any fun rest => rest.isEmpty || isOffset rest

end MemberSplit.Toml
