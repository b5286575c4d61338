import MemberSplit.Checked.Basic
import MemberSplit.Proofs.Text.Cut
import MemberSplit.Proofs.Text.Utf8

/-!
# Boundaries among bytes

The bytes of a character tell where it begins: its first byte goes on with no other character, and
each of its other bytes does. So the offsets at which a text can be cut can be told from its bytes.
-/

namespace MemberSplit.Utf8

theorem encode_append (text rest : Text) : encode (text ++ rest) = encode text ++ encode rest :=
  List.flatMap_append

theorem encode_cons (c : Char) (rest : Text) : encode (c :: rest) = encodeChar c ++ encode rest :=
  rfl

theorem utf8Size_eq (c : Char) : c.utf8Size =
    if c.toNat < 0x80 then 1 else if c.toNat < 0x800 then 2 else if c.toNat < 0x10000 then 3
    else 4 := by
  have hle : ∀ bound : UInt32, c.val ≤ bound ↔ c.toNat < bound.toNat + 1 := fun bound => by
    rw [UInt32.le_iff_toNat_le]
    exact Nat.lt_succ_iff.symm
  unfold Char.utf8Size
  simp only [hle]
  rfl

theorem isContinuation_ofNat {bits : Nat} (h : bits < 0x40) :
    isContinuation (UInt8.ofNat (0x80 + bits)) = true := by
  have hbyte : (UInt8.ofNat (0x80 + bits)).toNat = 0x80 + bits := toNat_ofNat (by omega)
  simp only [isContinuation, hbyte, Bool.and_eq_true, decide_eq_true_eq]
  omega

/-- A character of ASCII is one byte, its code. -/
theorem encodeChar_of_lt {c : Char} (h : c.toNat < 0x80) :
    encodeChar c = [UInt8.ofNat c.toNat] ∧ c.utf8Size = 1 := by
  refine ⟨?_, by rw [utf8Size_eq, if_pos h]⟩
  simp only [encodeChar]
  rw [if_pos h]

/-- The first byte of any other character is beyond those that go on with a character, and its other
bytes are such. -/
theorem exists_encodeChar_of_le {c : Char} (h : 0x80 ≤ c.toNat) :
    ∃ first tail, encodeChar c = UInt8.ofNat first :: tail ∧ 0xC0 ≤ first ∧ first < 0x100 ∧
      tail.length + 1 = c.utf8Size ∧ ∀ byte ∈ tail, isContinuation byte = true := by
  have hvalid : c.toNat < 0xD800 ∨ 0xDFFF < c.toNat ∧ c.toNat < 0x110000 := c.valid
  have hnot : ¬c.toNat < 0x80 := by omega
  have htail : ∀ unit,
      isContinuation (UInt8.ofNat (0x80 + c.toNat / unit % 0x40)) = true :=
    fun unit => isContinuation_ofNat (Nat.mod_lt _ (by omega))
  rw [utf8Size_eq, if_neg hnot]
  simp only [encodeChar]
  rw [if_neg hnot]
  by_cases htwo : c.toNat < 0x800
  · rw [if_pos htwo, if_pos htwo]
    exact ⟨_, _, rfl, by omega, by omega, rfl, List.forall_mem_singleton.mpr (htail 1)⟩
  · rw [if_neg htwo, if_neg htwo]
    by_cases hthree : c.toNat < 0x10000
    · rw [if_pos hthree, if_pos hthree]
      exact ⟨_, _, rfl, by omega, by omega, rfl, List.forall_mem_cons.mpr
        ⟨htail 0x40, List.forall_mem_singleton.mpr (htail 1)⟩⟩
    · rw [if_neg hthree, if_neg hthree]
      exact ⟨_, _, rfl, by omega, by omega, rfl, List.forall_mem_cons.mpr
        ⟨htail 0x1000, List.forall_mem_cons.mpr
          ⟨htail 0x40, List.forall_mem_singleton.mpr (htail 1)⟩⟩⟩

/-- The bytes of a character beyond ASCII are beyond ASCII. -/
theorem le_of_mem_encodeChar {c : Char} (h : 0x80 ≤ c.toNat) {byte : UInt8}
    (hmem : byte ∈ encodeChar c) : 0x80 ≤ byte.toNat := by
  obtain ⟨first, tail, hbytes, hlow, hhigh, -, htail⟩ := exists_encodeChar_of_le h
  rw [hbytes] at hmem
  rcases List.mem_cons.mp hmem with rfl | hmem
  · rw [toNat_ofNat hhigh]
    omega
  · obtain ⟨hle, -⟩ := Bool.and_eq_true_iff.mp (htail byte hmem)
    exact of_decide_eq_true hle

theorem length_encodeChar (c : Char) : (encodeChar c).length = c.utf8Size := by
  rcases Nat.lt_or_ge c.toNat 0x80 with hascii | hother
  · obtain ⟨hbytes, hsize⟩ := encodeChar_of_lt hascii
    rw [hbytes, hsize]
    rfl
  · obtain ⟨first, tail, hbytes, -, -, hsize, -⟩ := exists_encodeChar_of_le hother
    rw [hbytes, ← hsize]
    rfl

theorem length_encode (text : Text) : (encode text).length = text.byteLength := by
  induction text with
  | nil => rfl
  | cons c rest ih => rw [encode_cons, List.length_append, length_encodeChar, ih, Text.byteLength]

/-- A byte behind a cut is a byte of the text behind the cut. -/
theorem getElem?_encode_append (front back : Text) (index : Nat) :
    (encode (front ++ back))[front.byteLength + index]? = (encode back)[index]? := by
  rw [encode_append, ← length_encode, List.getElem?_append_right (Nat.le_add_right _ _),
    Nat.add_sub_cancel_left]

theorem isBoundary_encode_append (front back : Text) (index : Nat) :
    isBoundary (encode (front ++ back)) (front.byteLength + index) =
      isBoundary (encode back) index := by
  rw [isBoundary, isBoundary, getElem?_encode_append]
  cases (encode back)[index]? with
  | some byte => rfl
  | none => simp [encode_append, length_encode]

theorem isBoundary_of_head {byte : UInt8} {bytes : Bytes}
    (h : isContinuation byte = false) : isBoundary (byte :: bytes) 0 = true := by
  simp [isBoundary, h]

/-- The first byte of a character goes on with no other character, and the others go on with it. -/
theorem isBoundary_encode_cons {c : Char} {rest : Text} {index : Nat} (h : index < c.utf8Size) :
    isBoundary (encode (c :: rest)) index = true ↔ index = 0 := by
  rcases Nat.lt_or_ge c.toNat 0x80 with hascii | hother
  · obtain ⟨hbytes, hsize⟩ := encodeChar_of_lt hascii
    obtain rfl : index = 0 := by omega
    have hfirst : (UInt8.ofNat c.toNat).toNat = c.toNat := toNat_ofNat (by omega)
    have hstart : isContinuation (UInt8.ofNat c.toNat) = false := by
      simp only [isContinuation, hfirst, Bool.and_eq_false_iff, decide_eq_false_iff_not]
      omega
    rw [encode_cons, hbytes]
    exact iff_of_true (isBoundary_of_head hstart) rfl
  · obtain ⟨first, tail, hbytes, hlow, hhigh, hsize, htail⟩ := exists_encodeChar_of_le hother
    rw [encode_cons, hbytes, List.cons_append]
    cases index with
    | zero =>
        have hfirst : (UInt8.ofNat first).toNat = first := toNat_ofNat hhigh
        have hstart : isContinuation (UInt8.ofNat first) = false := by
          simp only [isContinuation, hfirst, Bool.and_eq_false_iff, decide_eq_false_iff_not]
          omega
        exact iff_of_true (isBoundary_of_head hstart) rfl
    | succ index =>
        have hindex : index < tail.length := by omega
        have hbyte := htail _ (List.getElem_mem hindex)
        simp [isBoundary, List.getElem?_append_left hindex, hindex, hbyte]

/-- The boundaries among the bytes of a text are the places at which the text can be cut. -/
theorem isBoundary_encode_iff {text : Text} {offset : Nat} :
    isBoundary (encode text) offset = true ↔ text.IsCut offset := by
  constructor
  · intro h
    have hle : offset ≤ text.byteLength := by
      rw [← length_encode]
      by_contra hgreater
      have hnone : (encode text)[offset]? = none := List.getElem?_eq_none (by omega)
      have heq : offset = (encode text).length := by simpa [isBoundary, hnone] using h
      omega
    obtain ⟨back, htext, hfront, hnext⟩ := Text.exists_takeBytes_append hle
    generalize text.takeBytes offset = front at htext hfront hnext
    obtain ⟨index, rfl⟩ := Nat.exists_eq_add_of_le hfront
    rw [htext, isBoundary_encode_append] at h
    obtain rfl : index = 0 := by
      cases back with
      | nil => simpa [isBoundary, encode] using h
      | cons c rest =>
          have hwithin := hnext c rfl
          exact (isBoundary_encode_cons (by omega)).mp h
    exact ⟨front, back, htext, rfl⟩
  · rintro ⟨front, back, rfl, rfl⟩
    have hzero := isBoundary_encode_append front back 0
    rw [Nat.add_zero] at hzero
    rw [hzero]
    cases back with
    | nil => rfl
    | cons c rest => exact (isBoundary_encode_cons (Char.utf8Size_pos c)).mpr rfl

end MemberSplit.Utf8
