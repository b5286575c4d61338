import MemberSplit.Proofs.Text.Boundary

/-!
# Bytes that are read as text

Any bytes read as a text. Each of its characters is written in the bytes as it is encoded, unless it
stands in for a part that is not UTF-8. So bytes that are valid are those of the text they read as.
A byte of ASCII is a character wherever it stands, and what is in front of it is read apart from
what is behind it.
-/

namespace MemberSplit.Utf8

section Characters

variable {first second third fourth : UInt8}

theorem ofNat_eq {n : Nat} {byte : UInt8} (h : n = byte.toNat) : UInt8.ofNat n = byte := by
  rw [h, UInt8.ofNat_toNat]

theorem encodeChar_of_byte (h : first.toNat < 0x80) :
    encodeChar (Char.ofNat first.toNat) = [first] := by
  have hchar : (Char.ofNat first.toNat).toNat = first.toNat :=
    toNat_ofNat_char (.inl (by omega))
  rw [(encodeChar_of_lt (by rwa [hchar])).1, hchar, UInt8.ofNat_toNat]

theorem encodeChar_two (hfirst : 0xC2 ≤ first.toNat ∧ first.toNat < 0xE0)
    (hsecond : 0x80 ≤ second.toNat ∧ second.toNat ≤ 0xBF) :
    encodeChar (Char.ofNat ((first.toNat - 0xC0) * 0x40 + (second.toNat - 0x80))) =
      [first, second] := by
  generalize hcode : (first.toNat - 0xC0) * 0x40 + (second.toNat - 0x80) = code
  have hchar : (Char.ofNat code).toNat = code := toNat_ofNat_char (.inl (by omega))
  have hbyte : UInt8.ofNat (0xC0 + code / 0x40) = first := ofNat_eq (by omega)
  have hbyte' : UInt8.ofNat (0x80 + code % 0x40) = second := ofNat_eq (by omega)
  simp only [encodeChar, hchar]
  rw [if_neg (by omega), if_pos (by omega), Nat.div_one, hbyte, hbyte']

/-- The ranges of the first two bytes keep out overlong forms and surrogates. -/
theorem encodeChar_three (hfirst : 0xE0 ≤ first.toNat ∧ first.toNat < 0xF0)
    (hsecond : 0x80 ≤ second.toNat ∧ second.toNat ≤ 0xBF)
    (hthird : 0x80 ≤ third.toNat ∧ third.toNat ≤ 0xBF)
    (hlow : first.toNat = 0xE0 → 0xA0 ≤ second.toNat)
    (hhigh : first.toNat = 0xED → second.toNat ≤ 0x9F) :
    encodeChar (Char.ofNat (((first.toNat - 0xE0) * 0x40 + (second.toNat - 0x80)) * 0x40 +
      (third.toNat - 0x80))) = [first, second, third] := by
  generalize hcode : ((first.toNat - 0xE0) * 0x40 + (second.toNat - 0x80)) * 0x40 +
    (third.toNat - 0x80) = code
  have hvalid : code < 0xD800 ∨ 0xDFFF < code ∧ code < 0x110000 := by omega
  have hchar : (Char.ofNat code).toNat = code := toNat_ofNat_char hvalid
  have hbyte : UInt8.ofNat (0xE0 + code / 0x1000) = first := ofNat_eq (by omega)
  have hbyte' : UInt8.ofNat (0x80 + code / 0x40 % 0x40) = second := ofNat_eq (by omega)
  have hbyte'' : UInt8.ofNat (0x80 + code % 0x40) = third := ofNat_eq (by omega)
  simp only [encodeChar, hchar]
  rw [if_neg (by omega), if_neg (by omega), if_pos (by omega), Nat.div_one, hbyte, hbyte',
    hbyte'']

theorem encodeChar_four (hfirst : 0xF0 ≤ first.toNat ∧ first.toNat ≤ 0xF4)
    (hsecond : 0x80 ≤ second.toNat ∧ second.toNat ≤ 0xBF)
    (hthird : 0x80 ≤ third.toNat ∧ third.toNat ≤ 0xBF)
    (hfourth : 0x80 ≤ fourth.toNat ∧ fourth.toNat ≤ 0xBF)
    (hlow : first.toNat = 0xF0 → 0x90 ≤ second.toNat)
    (hhigh : first.toNat = 0xF4 → second.toNat ≤ 0x8F) :
    encodeChar (Char.ofNat ((((first.toNat - 0xF0) * 0x40 + (second.toNat - 0x80)) * 0x40 +
      (third.toNat - 0x80)) * 0x40 + (fourth.toNat - 0x80))) =
      [first, second, third, fourth] := by
  generalize hcode : (((first.toNat - 0xF0) * 0x40 + (second.toNat - 0x80)) * 0x40 +
    (third.toNat - 0x80)) * 0x40 + (fourth.toNat - 0x80) = code
  have hrange : 0x10000 ≤ code ∧ code < 0x110000 := by omega
  have hchar : (Char.ofNat code).toNat = code := toNat_ofNat_char (.inr (by omega))
  have hbyte : UInt8.ofNat (0xF0 + code / 0x40000) = first := ofNat_eq (by omega)
  have hbyte' : UInt8.ofNat (0x80 + code / 0x1000 % 0x40) = second := ofNat_eq (by omega)
  have hbyte'' : UInt8.ofNat (0x80 + code / 0x40 % 0x40) = third := ofNat_eq (by omega)
  have hlast : UInt8.ofNat (0x80 + code % 0x40) = fourth := ofNat_eq (by omega)
  simp only [encodeChar, hchar]
  rw [if_neg (by omega), if_neg (by omega), if_neg (by omega), Nat.div_one, hbyte, hbyte',
    hbyte'', hlast]

end Characters

/-- However a character goes on that owes one byte and `more` others, the next of them between `low`
and `high`, it is encoded as the bytes `seen` and those that it owed. -/
def Spells : (more : Nat) → (seen : Bytes) → (bits low high : Nat) → Prop
  | 0, seen, bits, low, high => ∀ next : UInt8, low ≤ next.toNat → next.toNat ≤ high →
    encodeChar (Char.ofNat (bits * 0x40 + (next.toNat - 0x80))) = seen ++ [next]
  | more + 1, seen, bits, low, high => ∀ next : UInt8, low ≤ next.toNat → next.toNat ≤ high →
    Spells more (seen ++ [next]) (bits * 0x40 + (next.toNat - 0x80)) 0x80 0xBF

/-- What has been read of a character that has begun. -/
structure Begun.Follows (begun : Begun) (seen : Bytes) : Prop where
  owed : 0 < begun.owed
  low : 0x80 ≤ begun.low
  spells : Spells (begun.owed - 1) seen begun.bits begun.low begun.high

theorem range_of_lead {byte : Nat} {begun : Begun} (h : lead byte = .begins begun) :
    0xC2 ≤ byte ∧ byte ≤ 0xF4 := by
  unfold lead at h
  grind

theorem eq_of_lead {byte : Nat} {c : Char} (h : lead byte = .whole c) :
    byte < 0x80 ∧ c = Char.ofNat byte := by
  unfold lead at h
  by_cases hascii : byte < 0x80
  · rw [if_pos hascii] at h
    exact ⟨hascii, (Lead.whole.inj h).symm⟩
  · rw [if_neg hascii] at h
    grind

/-- After the first byte of a character. -/
theorem follows_of_lead {byte : UInt8} {begun : Begun} (h : lead byte.toNat = .begins begun) :
    begun.Follows [byte] := by
  obtain ⟨hlow, hhigh⟩ := range_of_lead h
  rcases Nat.lt_or_ge byte.toNat 0xE0 with htwo | hmore
  · rw [lead_two _ hlow htwo] at h
    obtain rfl := Lead.begins.inj h
    refine ⟨Nat.one_pos, Nat.le_refl _, ?_⟩
    intro second hle hge
    exact encodeChar_two ⟨hlow, htwo⟩ ⟨hle, hge⟩
  · rcases Nat.lt_or_ge byte.toNat 0xF0 with hthree | hfour
    · rw [lead_three _ hmore hthree] at h
      obtain rfl := Lead.begins.inj h
      refine ⟨Nat.two_pos, by simp only; split <;> omega, ?_⟩
      intro second hle hge third hle' hge'
      simp only at hle hge
      exact encodeChar_three ⟨hmore, hthree⟩ (by split at hle <;> split at hge <;> omega)
        ⟨hle', hge'⟩ (by split at hle <;> omega) (by split at hge <;> omega)
    · rw [lead_four _ hfour hhigh] at h
      obtain rfl := Lead.begins.inj h
      refine ⟨Nat.succ_pos _, by simp only; split <;> omega, ?_⟩
      intro second hle hge third hle' hge' fourth hle'' hge''
      simp only at hle hge
      exact encodeChar_four ⟨hfour, hhigh⟩ (by split at hle <;> split at hge <;> omega)
        ⟨hle', hge'⟩ ⟨hle'', hge''⟩ (by split at hle <;> omega) (by split at hge <;> omega)

/-- The character that has begun goes on. -/
theorem Begun.Follows.step {begun : Begun} {seen : Bytes} (h : begun.Follows seen)
    (howed : 1 < begun.owed) {byte : UInt8} (hlow : begun.low ≤ byte.toNat)
    (hhigh : byte.toNat ≤ begun.high) :
    Begun.Follows { bits := begun.bits * 0x40 + (byte.toNat - 0x80), owed := begun.owed - 1 }
      (seen ++ [byte]) := by
  obtain ⟨more, hmore⟩ : ∃ more, begun.owed - 1 = more + 1 :=
    Nat.exists_eq_succ_of_ne_zero (by omega)
  have hspells := h.spells
  rw [hmore] at hspells
  refine ⟨by simp only; omega, Nat.le_refl _, ?_⟩
  have hstep := hspells byte hlow hhigh
  simpa [hmore] using hstep

/-- The character that has begun ends. -/
theorem Begun.Follows.encodeChar_eq {begun : Begun} {seen : Bytes} (h : begun.Follows seen)
    (howed : begun.owed ≤ 1) {byte : UInt8} (hlow : begun.low ≤ byte.toNat)
    (hhigh : byte.toNat ≤ begun.high) :
    encodeChar (Char.ofNat (begun.bits * 0x40 + (byte.toNat - 0x80))) = seen ++ [byte] := by
  have hspells := h.spells
  rw [show begun.owed - 1 = 0 by omega] at hspells
  exact hspells byte hlow hhigh

/-- Bytes in a row that make up a character each or else read as none. -/
inductive Reads : Bytes → List (Option Char) → Prop
  | nil : Reads [] []
  | char (c : Char) {bytes : Bytes} {rest : List (Option Char)} (h : Reads bytes rest) :
    Reads (encodeChar c ++ bytes) (some c :: rest)
  | broken (seen : Bytes) {bytes : Bytes} {rest : List (Option Char)} (h : Reads bytes rest) :
    Reads (seen ++ bytes) (none :: rest)

/-- What has been read of a character, if one has begun. -/
def Follows (seen : Bytes) : Option Begun → Prop
  | none => seen = []
  | some begun => begun.Follows seen

theorem decodeFrom_some_cons (begun : Begun) (byte : UInt8) (rest : Bytes) :
    decodeFrom (some begun) (byte :: rest) =
      if begun.low ≤ byte.toNat ∧ byte.toNat ≤ begun.high then
        let bits := begun.bits * 0x40 + (byte.toNat - 0x80)
        if begun.owed ≤ 1 then some (Char.ofNat bits) :: decodeFrom none rest
        else decodeFrom (some { bits, owed := begun.owed - 1 }) rest
      else none :: decodeFrom none (byte :: rest) := by
  simp only [decodeFrom, Bool.and_eq_true, decide_eq_true_eq]

/-- What is read from a byte that begins no other character than its own. -/
theorem reads_decodeFrom_cons (byte : UInt8) {rest : Bytes}
    (ih : ∀ (state : Option Begun) (seen : Bytes), Follows seen state →
      Reads (seen ++ rest) (decodeFrom state rest)) :
    Reads (byte :: rest) (decodeFrom none (byte :: rest)) := by
  have hrest := ih none [] rfl
  cases hlead : lead byte.toNat with
  | whole c =>
      obtain ⟨hascii, rfl⟩ := eq_of_lead hlead
      have hread := Reads.char (Char.ofNat byte.toNat) hrest
      rw [encodeChar_of_byte hascii] at hread
      simpa [decodeFrom, hlead] using hread
  | begins begun =>
      have hread := ih (some begun) [byte] (follows_of_lead hlead)
      simpa [decodeFrom, hlead] using hread
  | invalid =>
      have hread := Reads.broken [byte] hrest
      simpa [decodeFrom, hlead] using hread

/-- What is read stands in the bytes. -/
theorem reads_decodeFrom (bytes : Bytes) (state : Option Begun) (seen : Bytes)
    (h : Follows seen state) : Reads (seen ++ bytes) (decodeFrom state bytes) := by
  induction bytes generalizing state seen with
  | nil =>
      cases state with
      | none =>
          obtain rfl := h
          exact .nil
      | some begun => exact .broken seen .nil
  | cons byte rest ih =>
      have hfresh := reads_decodeFrom_cons byte ih
      cases state with
      | none =>
          obtain rfl := h
          exact hfresh
      | some begun =>
          rw [decodeFrom_some_cons, List.append_cons]
          split
          next hrange =>
            split
            next howed =>
              rw [← Begun.Follows.encodeChar_eq h howed hrange.1 hrange.2]
              exact .char _ (ih none [] rfl)
            next howed =>
              exact ih _ _ (Begun.Follows.step h (by omega) hrange.1 hrange.2)
          next =>
            rw [List.append_assoc]
            exact .broken seen hfresh

theorem reads_decode (bytes : Bytes) : Reads bytes (decode bytes) :=
  reads_decodeFrom bytes none [] rfl

/-- A character that is read is written in the bytes. -/
theorem Reads.isInfix_encodeChar {bytes : Bytes} {characters : List (Option Char)}
    (h : Reads bytes characters) {c : Char} (hmem : some c ∈ characters) :
    encodeChar c <:+: bytes := by
  induction h with
  | nil => cases hmem
  | char d _ ih =>
      rcases List.mem_cons.mp hmem with heq | hlater
      · obtain rfl := Option.some.inj heq
        exact (List.prefix_append _ _).isInfix
      · exact (ih hlater).trans (List.suffix_append _ _).isInfix
  | broken seen _ ih =>
      rcases List.mem_cons.mp hmem with heq | hlater
      · cases heq
      · exact (ih hlater).trans (List.suffix_append _ _).isInfix

/-- Bytes of which no part is broken are the text that they read as. -/
theorem Reads.encode_eq {bytes : Bytes} {characters : List (Option Char)}
    (h : Reads bytes characters) (hvalid : ∀ read ∈ characters, read.isSome = true) :
    encode (characters.map fun c => c.getD '\uFFFD') = bytes := by
  induction h with
  | nil => rfl
  | char c _ ih =>
      rw [List.map_cons, encode_cons, ih fun read hmem => hvalid read (List.mem_cons_of_mem _ hmem)]
      rfl
  | broken seen _ ih => cases hvalid none List.mem_cons_self

/-- The valid bytes are those of texts, each of the text that it reads as. -/
theorem isValid_iff {bytes : Bytes} :
    isValid bytes = true ↔ encode (decodeLossy bytes) = bytes := by
  constructor
  · intro h
    exact (reads_decode bytes).encode_eq (List.all_eq_true.mp h)
  · intro h
    rw [isValid, ← h, decode_encode, List.all_eq_true]
    intro read hmem
    obtain ⟨c, -, rfl⟩ := List.mem_map.mp hmem
    rfl

/-- Bytes that read without a replacement are those of the text that they read as. -/
theorem encode_decodeLossy_of_not_mem {bytes : Bytes} (h : '\uFFFD' ∉ decodeLossy bytes) :
    encode (decodeLossy bytes) = bytes := by
  refine (reads_decode bytes).encode_eq fun read hmem => ?_
  cases read with
  | some c => rfl
  | none => exact absurd (List.mem_map.mpr ⟨none, hmem, rfl⟩) h

theorem mem_of_mem_decodeLossy {bytes : Bytes} {c : Char} (hascii : c.toNat < 0x80)
    (hmem : c ∈ decodeLossy bytes) : UInt8.ofNat c.toNat ∈ bytes := by
  obtain ⟨read, hread, rfl⟩ := List.mem_map.mp hmem
  cases read with
  | none => exact absurd hascii (by decide)
  | some c =>
      have hpart := (reads_decode bytes).isInfix_encodeChar hread
      rw [(encodeChar_of_lt (c := c) hascii).1] at hpart
      exact hpart.subset (List.mem_singleton.mpr rfl)

theorem decodeFrom_none_cons_of_ascii {byte : UInt8} (hascii : byte.toNat < 0x80) (rest : Bytes) :
    decodeFrom none (byte :: rest) = some (Char.ofNat byte.toNat) :: decodeFrom none rest := by
  have hlead : lead byte.toNat = .whole (Char.ofNat byte.toNat) := by rw [lead, if_pos hascii]
  simp only [decodeFrom, hlead]

/-- What is read from a byte is read in front of other bytes too. -/
theorem decodeFrom_none_cons_append (next : UInt8) {front back : Bytes}
    {read : List (Option Char)}
    (ih : ∀ state : Option Begun, (∀ begun ∈ state, 0x80 ≤ begun.low) →
      decodeFrom state (front ++ back) = decodeFrom state front ++ read) :
    decodeFrom none (next :: (front ++ back)) = decodeFrom none (next :: front) ++ read := by
  have hnone := ih none (by simp)
  cases hlead : lead next.toNat with
  | whole c => simp [decodeFrom, hlead, hnone]
  | begins begun =>
      have hbegun := ih (some begun) (by simpa using (follows_of_lead hlead).low)
      simp [decodeFrom, hlead, hbegun]
  | invalid => simp [decodeFrom, hlead, hnone]

/-- A byte of ASCII reads as itself, and what is in front of it reads as it does alone. -/
theorem decodeFrom_append_cons (front back : Bytes) {byte : UInt8} (hascii : byte.toNat < 0x80)
    (state : Option Begun) (hstate : ∀ begun ∈ state, 0x80 ≤ begun.low) :
    decodeFrom state (front ++ byte :: back) =
      decodeFrom state front ++ some (Char.ofNat byte.toNat) :: decodeFrom none back := by
  have hfresh := decodeFrom_none_cons_of_ascii hascii back
  induction front generalizing state with
  | nil =>
      cases state with
      | none => exact hfresh
      | some begun =>
          have hlow := hstate begun rfl
          rw [List.nil_append, decodeFrom_some_cons, if_neg (by omega), hfresh]
          rfl
  | cons next rest ih =>
      have hnext := decodeFrom_none_cons_append next ih
      cases state with
      | none => exact hnext
      | some begun =>
          rw [List.cons_append, decodeFrom_some_cons, decodeFrom_some_cons]
          split
          next =>
            split
            next =>
              rw [ih none (by simp)]
              rfl
            next => exact ih _ (by simp)
          next =>
            rw [hnext]
            rfl

theorem decodeLossy_append_cons (front back : Bytes) {byte : UInt8} (hascii : byte.toNat < 0x80) :
    decodeLossy (front ++ byte :: back) =
      decodeLossy front ++ Char.ofNat byte.toNat :: decodeLossy back := by
  rw [decodeLossy, decode, decodeFrom_append_cons front back hascii none (by simp),
    List.map_append]
  rfl

end MemberSplit.Utf8
