import MemberSplit.Json.Basic
import MemberSplit.Toml.Lexeme
import Mathlib.Tactic.SplitIfs

/-!
# Reading the lexemes of JSON

Strings, whole numbers and words of a JSON text. Each reader splits a text after what it reads.
Main statements: a text is read back from how it is quoted, and a number from its digits.
-/

namespace MemberSplit.Json

/-- A character that can stand between the lexemes. -/
def isSpace (c : Char) : Bool :=
  c == ' ' || c == '\n' || c == '\r' || c == '\t'

/-- The text without the space at its start. -/
def skipSpace (text : Text) : Text :=
  text.dropWhile isSpace

/-- The character that a letter behind a backslash stands for. -/
def escaped? (letter : Char) : Option Char :=
  match letter with
  | '"' | '\\' | '/' => some letter
  | 'b' => some '\x08'
  | 'f' => some '\x0c'
  | 'n' => some '\n'
  | 'r' => some '\r'
  | 't' => some '\t'
  | _ => none

/-- Reads a string behind its opening quote. A code that is no character by itself is refused. -/
def string? : Text → Option (Text × Text)
  | [] => none
  | '"' :: rest => some ([], rest)
  | '\\' :: 'u' :: first :: second :: third :: fourth :: rest => do
    let (meaning, _) ← Toml.codedChar? 4 [first, second, third, fourth]
    (string? rest).map (Text.extend meaning)
  | '\\' :: letter :: rest => do
    let meaning ← escaped? letter
    (string? rest).map (Text.extend [meaning])
  | c :: rest =>
    if c = '\\' || c.toNat < 0x20 then none else (string? rest).map (Text.extend [c])

/-- Reads the digits that a text starts with. No zero stands in front of other digits. -/
def digits? (text : Text) : Option (Nat × Text) :=
  let digits := text.takeWhile Char.isDigit
  if digits = [] || (digits.head? = some '0' && digits.length ≠ 1) then none
  else some (Nat.ofDigitChars 10 digits 0, text.dropWhile Char.isDigit)

/-- Reads the whole number that a text starts with. -/
def number? : Text → Option (Int × Text)
  | '-' :: rest => (digits? rest).map fun (value, rest) => (-value, rest)
  | text => (digits? text).map fun (value, rest) => (value, rest)

/-- Reads the value that a text starts with, if it has no values inside. -/
def scalar? : Text → Option (Json × Text)
  | 'n' :: 'u' :: 'l' :: 'l' :: rest => some (.null, rest)
  | 't' :: 'r' :: 'u' :: 'e' :: rest => some (.bool true, rest)
  | 'f' :: 'a' :: 'l' :: 's' :: 'e' :: rest => some (.bool false, rest)
  | '"' :: rest => (string? rest).map fun (value, rest) => (.str value, rest)
  | text => (number? text).map fun (value, rest) => (.num value, rest)

/-! ## Strings -/

section Strings

/-- A control character is read back from its code. -/
theorem string?_control {c : Char} (rest : Text) (h : c.toNat < 0x20) :
    string? ('\\' :: 'u' :: '0' :: '0' :: hexDigit (c.toNat / 16) :: hexDigit c.toNat :: rest) =
      (string? rest).map (Text.extend [c]) := by
  have hcodes : ∀ code < 0x20,
      Toml.codedChar? 4 ['0', '0', hexDigit (code / 16), hexDigit code] =
        some ([Char.ofNat code], []) := by
    decide
  rw [string?, hcodes c.toNat h, Char.ofNat_toNat]
  rfl

/-- A character that has no meaning of its own is read as it is. -/
theorem string?_plain {c : Char} (rest : Text) (hquote : c ≠ '"') (hslash : c ≠ '\\')
    (hcontrol : ¬ c.toNat < 0x20) :
    string? (c :: rest) = (string? rest).map (Text.extend [c]) := by
  rw [string?]
  · simp [hslash, hcontrol]
  all_goals simp_all

/-- Each character is read back from how it stands in a string. -/
theorem string?_escapeChar (c : Char) (rest : Text) :
    string? (escapeChar c ++ rest) = (string? rest).map (Text.extend [c]) := by
  have hcode : ∀ {code}, c.toNat = code → c = Char.ofNat code := fun h => by
    rw [← h, Char.ofNat_toNat]
  unfold escapeChar
  split_ifs with hquote hslash hline hreturn htab hback hfeed hcontrol
  · rw [hquote]; rfl
  · rw [hslash]; rfl
  · rw [hline]; rfl
  · rw [hreturn]; rfl
  · rw [htab]; rfl
  · rw [hcode hback]; rfl
  · rw [hcode hfeed]; rfl
  · exact string?_control rest hcontrol
  · exact string?_plain rest hquote hslash hcontrol

/-- A text is read back from how it is quoted. -/
theorem string?_quote (text rest : Text) :
    string? (text.flatMap escapeChar ++ '"' :: rest) = some (text, rest) := by
  induction text with
  | nil => rfl
  | cons c text ih =>
      rw [List.flatMap_cons, List.append_assoc, string?_escapeChar, ih]
      rfl

theorem quote_append (text rest : Text) :
    quote text ++ rest = '"' :: (text.flatMap escapeChar ++ '"' :: rest) := by
  simp [quote]

end Strings

/-! ## Numbers -/

section Numbers

/-- What can follow a number: no digit, for that would be one of the number. -/
def EndsNumber (rest : Text) : Prop :=
  ∀ c ∈ rest.head?, c.isDigit = false

theorem EndsNumber.takeWhile_eq {rest : Text} (h : EndsNumber rest) :
    rest.takeWhile Char.isDigit = [] ∧ rest.dropWhile Char.isDigit = rest := by
  cases rest with
  | nil => exact ⟨rfl, rfl⟩
  | cons c rest =>
      have hc := h c rfl
      exact ⟨List.takeWhile_cons_of_neg (by simp [hc]), List.dropWhile_cons_of_neg (by simp [hc])⟩

theorem isDigit_of_mem_ofNat {n : Nat} {c : Char} (h : c ∈ Text.ofNat n) : c.isDigit = true :=
  Nat.isDigit_of_mem_toDigits (by decide) (by decide) h

theorem exists_ofNat_eq_cons (n : Nat) :
    ∃ c digits, Text.ofNat n = c :: digits ∧ c.isDigit = true := by
  obtain ⟨c, digits, hdigits⟩ : ∃ c digits, Text.ofNat n = c :: digits :=
    List.exists_cons_of_ne_nil Nat.toDigits_ne_nil
  exact ⟨c, digits, hdigits, isDigit_of_mem_ofNat (hdigits ▸ List.mem_cons_self)⟩

/-- A number is not written with a zero in front. -/
theorem head?_ofNat_ne {n : Nat} (h : 0 < n) : (Text.ofNat n).head? ≠ some '0' := by
  unfold Text.ofNat
  induction n using Nat.strongRecOn with
  | ind n ih =>
      by_cases hsmall : n < 10
      · rw [Nat.toDigits_of_lt_base hsmall]
        simp [Nat.ne_of_gt h]
      · have hdiv : 0 < n / 10 := Nat.div_pos (Nat.le_of_not_lt hsmall) (by decide)
        have hsome : (Nat.toDigits 10 (n / 10)).head?.isSome = true :=
          List.isSome_head?.mpr Nat.toDigits_ne_nil
        rw [Nat.toDigits_of_base_le (by decide) (Nat.le_of_not_lt hsmall), List.head?_append,
          Option.or_of_isSome hsome]
        exact ih (n / 10) (Nat.div_lt_self h (by decide)) hdiv

theorem digits?_ofNat (n : Nat) {rest : Text} (hrest : EndsNumber rest) :
    digits? (Text.ofNat n ++ rest) = some (n, rest) := by
  obtain ⟨htake, hdrop⟩ := hrest.takeWhile_eq
  have hdigits : (Text.ofNat n ++ rest).takeWhile Char.isDigit = Text.ofNat n := by
    rw [List.takeWhile_append_of_pos fun c hc => isDigit_of_mem_ofNat hc, htake, List.append_nil]
  have hbehind : (Text.ofNat n ++ rest).dropWhile Char.isDigit = rest := by
    rw [List.dropWhile_append_of_pos fun c hc => isDigit_of_mem_ofNat hc, hdrop]
  have hzero : (Text.ofNat n).head? = some '0' → (Text.ofNat n).length = 1 := by
    intro hhead
    cases n with
    | zero => rfl
    | succ n => exact absurd hhead (head?_ofNat_ne n.succ_pos)
  have hvalue : Nat.ofDigitChars 10 (Text.ofNat n) 0 = n := Nat.ofDigitChars_ten_toDigits
  have hne : Text.ofNat n ≠ [] := Nat.toDigits_ne_nil
  unfold digits?
  simp only [hdigits, hbehind, hvalue]
  rw [if_neg]
  simpa [hne] using hzero

/-- A character that can begin a number. -/
def beginsNumber (c : Char) : Bool :=
  c.isDigit || c == '-'

theorem ne_of_beginsNumber {c other : Char} (h : beginsNumber c = true)
    (hother : beginsNumber other = false) : c ≠ other := by
  rintro rfl
  exact Bool.false_ne_true (hother.symm.trans h)

theorem exists_ofInt_eq_cons (n : Int) :
    ∃ c rest, Text.ofInt n = c :: rest ∧ beginsNumber c = true := by
  cases n with
  | ofNat n =>
      obtain ⟨c, digits, hdigits, hdigit⟩ := exists_ofNat_eq_cons n
      exact ⟨c, digits, hdigits, by simp [beginsNumber, hdigit]⟩
  | negSucc n => exact ⟨'-', Text.ofNat (n + 1), rfl, rfl⟩

theorem number?_ofInt (n : Int) {rest : Text} (hrest : EndsNumber rest) :
    number? (Text.ofInt n ++ rest) = some (n, rest) := by
  cases n with
  | ofNat n =>
      have hread := digits?_ofNat n hrest
      obtain ⟨c, digits, hdigits, hdigit⟩ := exists_ofNat_eq_cons n
      have hc : c ≠ '-' := by
        rintro rfl
        exact absurd hdigit (by decide)
      rw [Text.ofInt, hdigits, List.cons_append, number?, ← List.cons_append, ← hdigits, hread]
      · rfl
      · simpa using hc
  | negSucc n =>
      have hread := digits?_ofNat (n + 1) hrest
      rw [Text.ofInt, List.cons_append, number?, hread]
      rfl

/-- A number is read back. -/
theorem scalar?_ofInt (n : Int) {rest : Text} (hrest : EndsNumber rest) :
    scalar? (Text.ofInt n ++ rest) = some (.num n, rest) := by
  have hnumber := number?_ofInt n hrest
  obtain ⟨c, others, htext, hbegins⟩ := exists_ofInt_eq_cons n
  have hne : ∀ other, beginsNumber other = false → c ≠ other := fun other =>
    ne_of_beginsNumber hbegins
  rw [htext, List.cons_append] at hnumber ⊢
  rw [scalar?, hnumber]
  · rfl
  all_goals simp [hne, beginsNumber]

end Numbers

end MemberSplit.Json
