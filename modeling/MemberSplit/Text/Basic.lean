/-!
# Source text

A text is the list of its characters. A place in a text is counted in bytes of its UTF-8 form, so
`byteLength` is the measure and `takeBytes`, `dropBytes` and `slice` cut by it. Main statement: a
part of a text is the slice between its own offsets.
-/

namespace MemberSplit

/-- Source text, as its characters in order. -/
abbrev Text := List Char

/-- White space: the characters of the Unicode property White_Space. -/
def isBlank (c : Char) : Bool :=
  let code := c.toNat
  (0x09 ≤ code && code ≤ 0x0D) || code == 0x20 || code == 0x85 || code == 0xA0 ||
    code == 0x1680 || (0x2000 ≤ code && code ≤ 0x200A) || code == 0x2028 || code == 0x2029 ||
    code == 0x202F || code == 0x205F || code == 0x3000

/-- A string literal can stand for its text. -/
instance : Coe String Text := ⟨String.toList⟩

namespace Text

/-- The parts of a message in a row. -/
def concat (parts : List Text) : Text :=
  parts.flatten

/-- Number of bytes of the UTF-8 form. -/
def byteLength : Text → Nat
  | [] => 0
  | c :: rest => c.utf8Size + byteLength rest

/-- The characters that end within the first `count` bytes. -/
def takeBytes : Text → (count : Nat) → Text
  | [], _ => []
  | c :: rest, count =>
    if c.utf8Size ≤ count then c :: takeBytes rest (count - c.utf8Size) else []

/-- The characters that do not end within the first `count` bytes. -/
def dropBytes : Text → (count : Nat) → Text
  | [], _ => []
  | c :: rest, count =>
    if c.utf8Size ≤ count then dropBytes rest (count - c.utf8Size) else c :: rest

/-- The characters between two byte offsets. -/
def slice (text : Text) (start stop : Nat) : Text :=
  takeBytes (dropBytes text start) (stop - start)

theorem byteLength_append (before after : Text) :
    byteLength (before ++ after) = byteLength before + byteLength after := by
  induction before with
  | nil => simp [byteLength]
  | cons c before ih => simp [byteLength, ih, Nat.add_assoc]

/-- Cutting a text by the length of its first part gives that part. -/
theorem takeBytes_append (before after : Text) :
    takeBytes (before ++ after) (byteLength before) = before := by
  induction before with
  | nil =>
    cases after with
    | nil => rfl
    | cons c after => simp [takeBytes, byteLength, Nat.not_le.mpr (Char.utf8Size_pos c)]
  | cons c before ih => simp [takeBytes, byteLength, ih]

/-- Cutting off as much as the first part of a text is long leaves the second part. -/
theorem dropBytes_append (before after : Text) :
    dropBytes (before ++ after) (byteLength before) = after := by
  induction before with
  | nil =>
    cases after with
    | nil => rfl
    | cons c after => simp [dropBytes, byteLength, Nat.not_le.mpr (Char.utf8Size_pos c)]
  | cons c before ih => simp [dropBytes, byteLength, ih]

/-- A part of a text lies between the bytes in front of it and those and its own. -/
theorem slice_append (before part after : Text) :
    slice (before ++ (part ++ after)) (byteLength before) (byteLength (before ++ part)) =
      part := by
  rw [slice, dropBytes_append, byteLength_append, Nat.add_sub_cancel_left, takeBytes_append]

/-- Puts `lead` in front of the first part of a text that has been split in two. -/
def extend (lead : Text) (parts : Text × Text) : Text × Text :=
  (lead ++ parts.1, parts.2)

@[simp] theorem extend_mk (lead before after : Text) :
    extend lead (before, after) = (lead ++ before, after) := rfl

/-- What follows `lead`, if the text starts with it. -/
def dropLead? (text lead : Text) : Option Text :=
  match lead, text with
  | [], rest => some rest
  | _ :: _, [] => none
  | l :: lead, c :: rest => if l = c then dropLead? rest lead else none

/-- Dropping a lead succeeds exactly if the text is the lead and what follows it. -/
theorem dropLead?_eq_some_iff {text lead rest : Text} :
    dropLead? text lead = some rest ↔ lead ++ rest = text := by
  induction lead generalizing text with
  | nil => simp [dropLead?, eq_comm]
  | cons l lead ih =>
    cases text with
    | nil => simp [dropLead?]
    | cons c others =>
      by_cases hlc : l = c <;> simp [dropLead?, hlc, ih]

/-- Whether `part` stands somewhere in the text. -/
def contains (text part : Text) : Bool :=
  match text with
  | [] => part.isEmpty
  | c :: rest => part.isPrefixOf (c :: rest) || contains rest part

/-- Puts a character in front of the first of some pieces. -/
def consPiece (c : Char) : List Text → List Text
  | [] => [[c]]
  | piece :: pieces => (c :: piece) :: pieces

/-- The pieces between the characters that separate; always one more than there are of those. -/
def splitBy (isSeparator : Char → Bool) : Text → List Text
  | [] => [[]]
  | c :: rest =>
    if isSeparator c then [] :: splitBy isSeparator rest
    else consPiece c (splitBy isSeparator rest)

/-- The runs of characters other than white space. -/
def words (text : Text) : List Text :=
  (splitBy isBlank text).filter fun word => !word.isEmpty

/-- The words in a row, with `gap` between any two. -/
def joinWith (gap : Text) (parts : List Text) : Text :=
  gap.intercalate parts

/-- The text without the white space at its start. -/
def trimStart (text : Text) : Text :=
  text.dropWhile isBlank

/-- The text without the white space at its end. -/
def trimEnd (text : Text) : Text :=
  (text.reverse.dropWhile isBlank).reverse

/-- The text without the white space at its ends. -/
def trim (text : Text) : Text :=
  trimEnd (trimStart text)

/-- Each run of white space turned into one space, and none left at the ends. -/
def collapseBlanks (text : Text) : Text :=
  joinWith [' '] (words text)

/-- The text without its white space. -/
def withoutBlanks (text : Text) : Text :=
  text.filter fun c => !isBlank c

/-- Replaces each occurrence of `part`, from left to right, where `pending` characters belong to
an occurrence that has been replaced. -/
def replaceFrom (part substitute : Text) : (pending : Nat) → Text → Text
  | _, [] => []
  | pending + 1, _ :: rest => replaceFrom part substitute pending rest
  | 0, c :: rest =>
    if part.isPrefixOf (c :: rest) then
      substitute ++ replaceFrom part substitute (part.length - 1) rest
    else c :: replaceFrom part substitute 0 rest

/-- The text with each occurrence of a nonempty `part` replaced; occurrences do not overlap. -/
def replace (text part substitute : Text) : Text :=
  replaceFrom part substitute 0 text

/-- What follows the first of `leads` that the text starts with, or the whole text. -/
def dropAnyLead (text : Text) (leads : List Text) : Text :=
  (leads.findSome? fun lead => dropLead? text lead).getD text

/-- The text before and after the last occurrence of `part`. -/
def splitAtLast? (text part : Text) : Option (Text × Text) :=
  match text with
  | [] => if part.isEmpty then some ([], []) else none
  | c :: rest =>
    match splitAtLast? rest part with
    | some parts => some (extend [c] parts)
    | none => (dropLead? (c :: rest) part).map fun after => ([], after)

/-- The part of a qualified name behind its last `::`. -/
def lastComponent (name : Text) : Text :=
  match splitAtLast? name "::" with
  | some (_, last) => last
  | none => name

/-- The text of a decimal number. -/
def ofNat (n : Nat) : Text :=
  Nat.toDigits 10 n

/-- The text of a signed decimal number. -/
def ofInt : Int → Text
  | .ofNat n => ofNat n
  | .negSucc n => '-' :: ofNat (n + 1)

end Text

end MemberSplit
