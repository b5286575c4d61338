import Mathlib.Data.List.Basic
import MemberSplit.Text.Utf8

/-!
# Reading what was encoded

The bytes of a text read as that text: each character is told from the bytes behind it. So no two
texts have the same bytes, and no text is lossy.
-/

namespace MemberSplit.Utf8

/-- The first byte of a character with two bytes. -/
theorem lead_two (byte : Nat) (hlow : 0xC2 ≤ byte) (hhigh : byte < 0xE0) :
    lead byte = .begins { bits := byte - 0xC0, owed := 1 } := by
  unfold lead
  rw [if_neg (by omega), if_neg (by omega), if_pos hhigh]

/-- The first byte of a character with three bytes. -/
theorem lead_three (byte : Nat) (hlow : 0xE0 ≤ byte) (hhigh : byte < 0xF0) :
    lead byte = .begins
      { bits := byte - 0xE0
        owed := 2
        low := if byte = 0xE0 then 0xA0 else 0x80
        high := if byte = 0xED then 0x9F else 0xBF } := by
  unfold lead
  rw [if_neg (by omega), if_neg (by omega), if_neg (by omega)]
  -- Two bytes have a narrower range behind them, to keep out overlong forms and surrogates.
  by_cases hfirst : byte = 0xE0
  · subst hfirst
    rfl
  · by_cases hsurrogate : byte = 0xED
    · subst hsurrogate
      rfl
    · simp [hfirst, hsurrogate, hhigh]

/-- The first byte of a character with four bytes. -/
theorem lead_four (byte : Nat) (hlow : 0xF0 ≤ byte) (hhigh : byte ≤ 0xF4) :
    lead byte = .begins
      { bits := byte - 0xF0
        owed := 3
        low := if byte = 0xF0 then 0x90 else 0x80
        high := if byte = 0xF4 then 0x8F else 0xBF } := by
  unfold lead
  rw [if_neg (by omega), if_neg (by omega), if_neg (by omega), if_neg (by omega),
    if_neg (by omega), if_neg (by omega)]
  by_cases hfirst : byte = 0xF0
  · subst hfirst
    rfl
  · by_cases hlast : byte = 0xF4
    · subst hlast
      rfl
    · have hbetween : byte < 0xF4 := by omega
      simp [hfirst, hlast, hbetween]

theorem toNat_ofNat {n : Nat} (h : n < 0x100) : (UInt8.ofNat n).toNat = n := by
  simpa using Nat.mod_eq_of_lt h

theorem toNat_ofNat_char {code : Nat} (h : code.isValidChar) : (Char.ofNat code).toNat = code := by
  rw [Char.ofNat, dif_pos h]
  rfl

theorem decodeFrom_begins {first : Nat} {begun : Begun} (hbyte : first < 0x100)
    (hlead : lead first = .begins begun) (rest : Bytes) :
    decodeFrom none (UInt8.ofNat first :: rest) = decodeFrom (some begun) rest := by
  simp only [decodeFrom, toNat_ofNat hbyte, hlead]

/-- A byte that continues a character but does not end it. -/
theorem decodeFrom_continues {begun : Begun} {bits : Nat} (hbits : bits < 0x40)
    (hrange : begun.low ≤ 0x80 + bits ∧ 0x80 + bits ≤ begun.high) (howed : 1 < begun.owed)
    (rest : Bytes) : decodeFrom (some begun) (UInt8.ofNat (0x80 + bits) :: rest) =
      decodeFrom (some { bits := begun.bits * 0x40 + bits, owed := begun.owed - 1 }) rest := by
  have hbyte : (UInt8.ofNat (0x80 + bits)).toNat = 0x80 + bits := toNat_ofNat (by omega)
  have hin : (begun.low ≤ 0x80 + bits && 0x80 + bits ≤ begun.high) = true := by simp [hrange]
  simp only [decodeFrom, hbyte, hin, if_true, if_neg (Nat.not_le.mpr howed),
    Nat.add_sub_cancel_left]

/-- A byte that ends a character. -/
theorem decodeFrom_ends {begun : Begun} {bits : Nat} (hbits : bits < 0x40)
    (hrange : begun.low ≤ 0x80 + bits ∧ 0x80 + bits ≤ begun.high) (howed : begun.owed = 1)
    (rest : Bytes) : decodeFrom (some begun) (UInt8.ofNat (0x80 + bits) :: rest) =
      some (Char.ofNat (begun.bits * 0x40 + bits)) :: decodeFrom none rest := by
  have hbyte : (UInt8.ofNat (0x80 + bits)).toNat = 0x80 + bits := toNat_ofNat (by omega)
  have hin : (begun.low ≤ 0x80 + bits && 0x80 + bits ≤ begun.high) = true := by simp [hrange]
  simp only [decodeFrom, hbyte, hin, if_true, if_pos (Nat.le_of_eq howed),
    Nat.add_sub_cancel_left]

theorem decodeFrom_one {code : Nat} (h : code < 0x80) (rest : Bytes) :
    decodeFrom none (UInt8.ofNat code :: rest) =
      some (Char.ofNat code) :: decodeFrom none rest := by
  have hlead : lead code = .whole (Char.ofNat code) := by rw [lead, if_pos h]
  simp only [decodeFrom, toNat_ofNat (show code < 0x100 by omega), hlead]

theorem decodeFrom_two {code : Nat} (hlow : 0x80 ≤ code) (hhigh : code < 0x800) (rest : Bytes) :
    decodeFrom none (UInt8.ofNat (0xC0 + code / 0x40) :: UInt8.ofNat (0x80 + code % 0x40) ::
      rest) = some (Char.ofNat code) :: decodeFrom none rest := by
  have hlead := lead_two (0xC0 + code / 0x40) (by omega) (by omega)
  have hcode : (0xC0 + code / 0x40 - 0xC0) * 0x40 + code % 0x40 = code := by omega
  rw [decodeFrom_begins (by omega) hlead, decodeFrom_ends (by omega) (by simp only; omega) rfl,
    hcode]

theorem decodeFrom_three {code : Nat} (hlow : 0x800 ≤ code) (hhigh : code < 0x10000)
    (hvalid : code < 0xD800 ∨ 0xDFFF < code) (rest : Bytes) :
    decodeFrom none (UInt8.ofNat (0xE0 + code / 0x1000) ::
      UInt8.ofNat (0x80 + code / 0x40 % 0x40) :: UInt8.ofNat (0x80 + code % 0x40) :: rest) =
      some (Char.ofNat code) :: decodeFrom none rest := by
  have hlead := lead_three (0xE0 + code / 0x1000) (by omega) (by omega)
  have hcode : ((0xE0 + code / 0x1000 - 0xE0) * 0x40 + code / 0x40 % 0x40) * 0x40 +
      code % 0x40 = code := by omega
  rw [decodeFrom_begins (by omega) hlead,
    decodeFrom_continues (by omega) (by simp only; split <;> split <;> omega) (by simp),
    decodeFrom_ends (by omega) (by simp only; omega) rfl, hcode]

theorem decodeFrom_four {code : Nat} (hlow : 0x10000 ≤ code) (hhigh : code < 0x110000)
    (rest : Bytes) :
    decodeFrom none (UInt8.ofNat (0xF0 + code / 0x40000) ::
      UInt8.ofNat (0x80 + code / 0x1000 % 0x40) :: UInt8.ofNat (0x80 + code / 0x40 % 0x40) ::
      UInt8.ofNat (0x80 + code % 0x40) :: rest) =
      some (Char.ofNat code) :: decodeFrom none rest := by
  have hlead := lead_four (0xF0 + code / 0x40000) (by omega) (by omega)
  have hcode : (((0xF0 + code / 0x40000 - 0xF0) * 0x40 + code / 0x1000 % 0x40) * 0x40 +
      code / 0x40 % 0x40) * 0x40 + code % 0x40 = code := by omega
  rw [decodeFrom_begins (by omega) hlead,
    decodeFrom_continues (by omega) (by simp only; split <;> split <;> omega) (by simp),
    decodeFrom_continues (by omega) (by simp only; omega) (by simp),
    decodeFrom_ends (by omega) (by simp only; omega) rfl, hcode]

/-- A character is told from the bytes behind it. -/
theorem decodeFrom_encodeChar (c : Char) (rest : Bytes) :
    decodeFrom none (encodeChar c ++ rest) = some c :: decodeFrom none rest := by
  -- The codes of characters leave out the surrogates.
  have hvalid : c.toNat < 0xD800 ∨ 0xDFFF < c.toNat ∧ c.toNat < 0x110000 := c.valid
  have hchar := Char.ofNat_toNat c
  unfold encodeChar
  generalize c.toNat = code at hvalid hchar
  subst hchar
  simp only [Nat.div_one]
  split
  next hone => exact decodeFrom_one hone rest
  next hone =>
    split
    next htwo => exact decodeFrom_two (by omega) htwo rest
    next htwo =>
      split
      next hthree => exact decodeFrom_three (by omega) hthree (by omega) rest
      next hthree => exact decodeFrom_four (by omega) (by omega) rest

/-- What was encoded reads as it was. -/
theorem decode_encode (text : Text) : decode (encode text) = text.map some := by
  unfold decode
  induction text with
  | nil => rfl
  | cons c rest ih =>
      rw [encode, List.flatMap_cons, decodeFrom_encodeChar, List.map_cons]
      exact congrArg _ ih

theorem decodeLossy_encode (text : Text) : decodeLossy (encode text) = text := by
  rw [decodeLossy, decode_encode, List.map_map]
  exact List.map_id' text

/-- No two texts have the same bytes. -/
theorem encode_injective {text other : Text} (h : encode text = encode other) : text = other := by
  have hdecode := congrArg decode h
  rw [decode_encode, decode_encode] at hdecode
  exact List.map_injective_iff.mpr (fun _ _ => Option.some.inj) hdecode

/-- Bytes that are the form of a text read as that text alone. -/
theorem decode?_eq_some_of_isValid {bytes : Bytes} (h : isValid bytes = true) :
    decode? bytes = some (decodeLossy bytes) := by
  unfold isValid at h
  unfold decode? decodeLossy
  generalize decode bytes = characters at h
  induction characters with
  | nil => rfl
  | cons c rest ih =>
      simp only [List.all_cons, Bool.and_eq_true] at h
      obtain ⟨c, rfl⟩ := Option.isSome_iff_exists.mp h.1
      simp [List.mapM_cons, ih h.2]

end MemberSplit.Utf8
