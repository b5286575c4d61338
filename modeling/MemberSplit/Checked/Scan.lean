import MemberSplit.Brace.Balance
import MemberSplit.Checked.Basic
import MemberSplit.Lexical.FirstCode

/-!
# Scanning of bytes

Braces and the first code of a text are looked for among its bytes, where a place is a number of
bytes and can be within a character. The marks that are looked for are ASCII, and no byte of another
character is one of them.
-/

namespace MemberSplit.Checked

open Lexical (Context)

/-- The byte at a place, as the character with that code. -/
def byteAt? (bytes : Bytes) (place : Nat) : Option Char :=
  bytes[place]?.map fun byte => Char.ofNat byte.toNat

theorem lt_length_of_byteAt? {bytes : Bytes} {place : Nat} {c : Char}
    (h : byteAt? bytes place = some c) : place < bytes.length := by
  obtain ⟨byte, hbyte, -⟩ := Option.map_eq_some_iff.mp h
  exact (List.getElem?_eq_some_iff.mp hbyte).1

section Ends

/-- The place of the next newline, or the end. -/
def newlineFrom (bytes : Bytes) (place : Nat) : Nat :=
  match _h : byteAt? bytes place with
  | none => bytes.length
  | some c => if c = '\n' then place else newlineFrom bytes (place + 1)
termination_by bytes.length - place
decreasing_by
  have := lt_length_of_byteAt? _h
  omega

/-- The place behind a star and a slash, or the end. -/
def blockEnd (bytes : Bytes) (place : Nat) : Nat :=
  match _h : byteAt? bytes place, byteAt? bytes (place + 1) with
  | some first, some second =>
    if first = '*' ∧ second = '/' then place + 2 else blockEnd bytes (place + 1)
  | _, _ => bytes.length
termination_by bytes.length - place
decreasing_by
  have := lt_length_of_byteAt? _h
  omega

/-- The place behind the mark that ends a literal, or the end. A backslash takes the next byte
along, and a newline ends a character literal. -/
def quotedEnd (bytes : Bytes) (mark : Char) (place : Nat) : Nat :=
  match _h : byteAt? bytes place with
  | none => bytes.length
  | some c =>
    if c = '\\' then quotedEnd bytes mark (place + 2)
    else if c = mark then place + 1
    else if mark = '\'' && c = '\n' then place
    else quotedEnd bytes mark (place + 1)
termination_by bytes.length - place
decreasing_by
  all_goals
    have := lt_length_of_byteAt? _h
    omega

theorem le_newlineFrom (bytes : Bytes) (place : Nat) :
    min place bytes.length ≤ newlineFrom bytes place := by
  fun_induction newlineFrom bytes place with
  | case1 place h => exact Nat.min_le_right _ _
  | case2 place h => exact Nat.min_le_left _ _
  | case3 place c h hc ih => omega

theorem le_blockEnd (bytes : Bytes) (place : Nat) :
    min place bytes.length ≤ blockEnd bytes place := by
  fun_induction blockEnd bytes place with
  | case1 place first second hfirst hsecond hend => omega
  | case2 place first second hfirst hsecond hnot ih => omega
  | case3 place hnone => exact Nat.min_le_right _ _

theorem le_quotedEnd (bytes : Bytes) (mark : Char) (place : Nat) :
    min place bytes.length ≤ quotedEnd bytes mark place := by
  fun_induction quotedEnd bytes mark place with
  | case1 place h => exact Nat.min_le_right _ _
  | case2 place h ih => omega
  | case3 place h hmark => omega
  | case4 place c h hescape hmark hline => exact Nat.min_le_left _ _
  | case5 place c h hescape hmark hline ih => omega

end Ends

section Braces

/-- The place of the newline behind a place, in the bytes from that place on, or the end. -/
def lineEnd (bytes : Bytes) (place : Nat) : Except Fault Nat :=
  if place ≤ bytes.length then .ok (newlineFrom bytes place)
  else .error (.slice place bytes.length)

/-- Where the comment ends that begins at a place. A line comment ends in front of its newline. -/
def commentEnd? (bytes : Bytes) (place : Nat) : Except Fault (Option Nat) :=
  if byteAt? bytes place = some '/' then
    if byteAt? bytes (place + 1) = some '/' then (lineEnd bytes place).map some
    else if byteAt? bytes (place + 1) = some '*' then .ok (some (blockEnd bytes (place + 2)))
    else .ok none
  else .ok none

/-- The byte in front of a place. -/
def byteBefore? (bytes : Bytes) : (place : Nat) → Option Char
  | 0 => none
  | place + 1 => byteAt? bytes place

/-- Whether a single quote at the place stands between a decimal and a hexadecimal digit. -/
def separatesDigits (bytes : Bytes) (place : Nat) : Bool :=
  (byteBefore? bytes place).any Char.isDigit && (byteAt? bytes (place + 1)).any Context.isHexDigit

/-- The place behind the byte at a place, or behind the literal that begins with it. -/
def literalEnd (bytes : Bytes) (place : Nat) (c : Char) : Nat :=
  if c = '"' then quotedEnd bytes '"' (place + 1)
  else if c = '\'' && !separatesDigits bytes place then quotedEnd bytes '\'' (place + 1)
  else place + 1

/-- The place behind a byte that is no brace, or behind the comment or literal that begins with
it. -/
def advance (mode : ScanMode) (bytes : Bytes) (place : Nat) (c : Char) : Except Fault Nat :=
  match mode with
  | .literal => .ok (place + 1)
  | .lexical => (commentEnd? bytes place).map fun stop? => stop?.getD (literalEnd bytes place c)

theorem lt_of_commentEnd? {bytes : Bytes} {place stop : Nat}
    (h : commentEnd? bytes place = .ok (some stop)) : place < stop := by
  unfold commentEnd? at h
  split at h
  next hslash =>
    have hplace := lt_length_of_byteAt? hslash
    split at h
    next =>
      have hbehind := le_newlineFrom bytes (place + 1)
      rw [lineEnd, if_pos (Nat.le_of_lt hplace), newlineFrom, hslash] at h
      obtain rfl : newlineFrom bytes (place + 1) = stop := by simpa [Except.map] using h
      omega
    next =>
      split at h
      next =>
        have hbehind := le_blockEnd bytes (place + 2)
        obtain rfl : blockEnd bytes (place + 2) = stop := by simpa using h
        omega
      next => simp at h
  next => simp at h

theorem lt_literalEnd {bytes : Bytes} {place : Nat} (h : place < bytes.length) (c : Char) :
    place < literalEnd bytes place c := by
  have hquoted := fun mark => le_quotedEnd bytes mark (place + 1)
  unfold literalEnd
  split
  next =>
    have := hquoted '"'
    omega
  next =>
    split
    next =>
      have := hquoted '\''
      omega
    next => exact Nat.lt_succ_self place

theorem lt_of_advance {mode : ScanMode} {bytes : Bytes} {place next : Nat} {c : Char}
    (hc : byteAt? bytes place = some c) (h : advance mode bytes place c = .ok next) :
    place < next := by
  cases mode with
  | literal =>
      obtain rfl := Except.ok.inj h
      exact Nat.lt_succ_self place
  | lexical =>
      unfold advance at h
      cases hcomment : commentEnd? bytes place with
      | error fault =>
          rw [hcomment] at h
          cases h
      | ok stop? =>
          rw [hcomment] at h
          obtain rfl := Except.ok.inj h
          cases stop? with
          | some stop => exact lt_of_commentEnd? hcomment
          | none => exact lt_literalEnd (lt_length_of_byteAt? hc) c

/-- The braces that count from a place on, with their places. -/
def bracesFrom (mode : ScanMode) (bytes : Bytes) (place : Nat) :
    Except Fault (List (Nat × Brace)) :=
  match _hc : byteAt? bytes place with
  | none => .ok []
  | some c =>
    match Brace.ofChar? .start c with
    | some brace => do
      let others ← bracesFrom mode bytes (place + 1)
      return (place, brace) :: others
    | none =>
      match _h : advance mode bytes place c with
      | .error fault => .error fault
      | .ok next => bracesFrom mode bytes next
termination_by bytes.length - place
decreasing_by
  · have := lt_length_of_byteAt? _hc
    omega
  · have := lt_length_of_byteAt? _hc
    have := lt_of_advance _hc _h
    omega

/-- The place of the brace that ends the outermost of `depth` open blocks. -/
def closingFrom (depth : Nat) : List (Nat × Brace) → Except Fault (Option Nat)
  | [] => .ok none
  | (_, .opening) :: others => closingFrom (depth + 1) others
  | (place, .closing) :: others => do
    let depth ← pred depth
    if depth = 0 then return some place else closingFrom depth others

/-- The place of the brace that closes the one at `opening`, if there is one there. -/
def closingBrace? (text : Text) (opening : Nat) (mode : ScanMode) : Except Fault (Option Nat) :=
  let bytes := Utf8.encode text
  if byteAt? bytes opening = some '{' then do
    let braces ← bracesFrom mode bytes (opening + 1)
    closingFrom 1 braces
  else .ok none

/-- The balance of the braces that count in a text. -/
def balance (mode : ScanMode) (text : Text) : Except Fault Balance := do
  let braces ← bracesFrom mode (Utf8.encode text) 0
  return (braces.map Prod.snd).foldl Balance.push .zero

end Braces

section FirstCode

/-- White space of ASCII. -/
def isAsciiBlank (c : Char) : Bool :=
  c = ' ' || c = '\t' || c = '\n' || c = '\x0C' || c = '\r'

/-- The place of the first code from a place on. Only a byte that is neither white space nor opens a
comment is looked at as a character. -/
def firstCodeFrom (text : Text) (place : Nat) : Except Fault (Option Nat) :=
  match _hc : byteAt? (Utf8.encode text) place with
  | none => .ok none
  | some byte =>
    if isAsciiBlank byte then firstCodeFrom text (place + 1)
    else
      match _h : commentEnd? (Utf8.encode text) place with
      | .error fault => .error fault
      | .ok (some stop) => firstCodeFrom text stop
      | .ok none =>
        match slice text place text.byteLength with
        | .error fault => .error fault
        | .ok [] => .ok none
        | .ok (c :: _) =>
          if Lexical.isFiller c then firstCodeFrom text (place + c.utf8Size) else .ok (some place)
termination_by (Utf8.encode text).length - place
decreasing_by
  all_goals have hplace := lt_length_of_byteAt? _hc
  · omega
  · have := lt_of_commentEnd? _h
    omega
  · have := c.utf8Size_pos
    omega

/-- The place of the first character that is neither white space nor part of a comment. -/
def firstCode? (text : Text) : Except Fault (Option Nat) :=
  firstCodeFrom text 0

end FirstCode

end MemberSplit.Checked
