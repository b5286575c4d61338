import MemberSplit.Checked.Scan
import MemberSplit.Proofs.Lexical.FirstCode
import MemberSplit.Proofs.Text.Boundary

/-!
# Skipping comments and literals among bytes

A loop over the bytes of a text comes to the end of a comment or of a literal, as reading the
characters does. The loop may take a byte along without looking at it and so come to a place within
a character, but it leaves that character before anything can end.
-/

namespace MemberSplit.Checked

open Lexical (Context)

variable {text front rest : Text} {c d : Char}

section Bytes

theorem toNat_ofNat_toNat (byte : UInt8) : (Char.ofNat byte.toNat).toNat = byte.toNat := by
  have hbyte := byte.toNat_lt
  exact Utf8.toNat_ofNat_char (.inl (by omega))

/-- The bytes of a character of ASCII are the character, and those of any other are beyond ASCII. -/
theorem byteAt?_encode_cons {index : Nat} (h : index < c.utf8Size) (rest : Text) :
    ∃ d, byteAt? (Utf8.encode (c :: rest)) index = some d ∧
      (d = c ∨ 0x80 ≤ c.toNat ∧ 0x80 ≤ d.toNat) := by
  rcases Nat.lt_or_ge c.toNat 0x80 with hascii | hother
  · obtain ⟨hbytes, hsize⟩ := Utf8.encodeChar_of_lt hascii
    obtain rfl : index = 0 := by omega
    have hcode : (UInt8.ofNat c.toNat).toNat = c.toNat := Utf8.toNat_ofNat (by omega)
    refine ⟨c, ?_, .inl rfl⟩
    rw [Utf8.encode_cons, hbytes, byteAt?, List.cons_append, List.getElem?_cons_zero,
      Option.map_some, hcode, Char.ofNat_toNat]
  · have hindex : index < (Utf8.encodeChar c).length := by rwa [Utf8.length_encodeChar]
    refine ⟨Char.ofNat (Utf8.encodeChar c)[index].toNat, ?_, .inr ⟨hother, ?_⟩⟩
    · rw [Utf8.encode_cons, byteAt?, List.getElem?_append_left hindex,
        List.getElem?_eq_getElem hindex, Option.map_some]
    · rw [toNat_ofNat_toNat]
      exact Utf8.le_of_mem_encodeChar hother (List.getElem_mem hindex)

theorem byteAt?_encode_append (front back : Text) (index : Nat) :
    byteAt? (Utf8.encode (front ++ back)) (front.byteLength + index) =
      byteAt? (Utf8.encode back) index :=
  congrArg (Option.map _) (Utf8.getElem?_encode_append front back index)

theorem byteAt?_of_nil (htext : text = front ++ []) :
    byteAt? (Utf8.encode text) front.byteLength = none := by
  rw [htext, List.append_nil, byteAt?, ← Utf8.length_encode,
    List.getElem?_eq_none (Nat.le_refl _), Option.map_none]

/-- The byte of a text at a cut is that of the character there. -/
theorem exists_byteAt?_of_cons (htext : text = front ++ c :: rest) :
    ∃ d, byteAt? (Utf8.encode text) front.byteLength = some d ∧
      (d = c ∨ 0x80 ≤ c.toNat ∧ 0x80 ≤ d.toNat) := by
  obtain ⟨d, hd, hcode⟩ := byteAt?_encode_cons (Char.utf8Size_pos c) rest
  rw [htext]
  exact ⟨d, (byteAt?_encode_append front (c :: rest) 0).trans hd, hcode⟩

theorem ne_of_le_of_lt {mark : Char} (hd : 0x80 ≤ d.toNat) (hmark : mark.toNat < 0x80) :
    d ≠ mark := by
  rintro rfl
  omega

/-- A character of ASCII stands behind a cut of a text exactly if it is the byte there. -/
theorem byteAt?_eq_some_iff {mark : Char} (htext : text = front ++ rest)
    (hmark : mark.toNat < 0x80) :
    byteAt? (Utf8.encode text) front.byteLength = some mark ↔ rest.head? = some mark := by
  cases rest with
  | nil => rw [byteAt?_of_nil htext, List.head?_nil]
  | cons c others =>
      obtain ⟨d, hd, rfl | ⟨hc, hcode⟩⟩ := exists_byteAt?_of_cons htext
      · rw [hd, List.head?_cons]
      · rw [hd, List.head?_cons]
        exact iff_of_false (mt Option.some.inj (ne_of_le_of_lt hcode hmark))
          (mt Option.some.inj (ne_of_le_of_lt hc hmark))

/-- A test that only characters of ASCII pass can be made on the byte behind a cut. -/
theorem any_byteAt? {test : Char → Bool} (htest : ∀ c, test c = true → c.toNat < 0x80)
    (htext : text = front ++ rest) :
    (byteAt? (Utf8.encode text) front.byteLength).any test = rest.head?.any test := by
  have hfail : ∀ c : Char, 0x80 ≤ c.toNat → test c = false := fun c hc =>
    Bool.eq_false_iff.mpr fun h => absurd (htest c h) (Nat.not_lt.mpr hc)
  cases rest with
  | nil =>
      rw [byteAt?_of_nil htext]
      rfl
  | cons c others =>
      obtain ⟨d, hd, rfl | ⟨hc, hcode⟩⟩ := exists_byteAt?_of_cons htext
      · rw [hd]
        rfl
      · rw [hd, List.head?_cons, Option.any_some, Option.any_some, hfail c hc, hfail d hcode]

theorem byteLength_concat (front : Text) (c : Char) :
    (front ++ [c]).byteLength = front.byteLength + c.utf8Size := by
  rw [Text.byteLength_append, Text.byteLength, Text.byteLength_nil, Nat.add_zero]

theorem byteLength_concat_of_lt (hc : c.toNat < 0x80) :
    (front ++ [c]).byteLength = front.byteLength + 1 := by
  rw [byteLength_concat, (Utf8.encodeChar_of_lt hc).2]

/-- Behind a character of ASCII the next byte is the next place. -/
theorem byteAt?_behind_eq_some_iff {mark : Char} (htext : text = front ++ c :: rest)
    (hc : c.toNat < 0x80) (hmark : mark.toNat < 0x80) :
    byteAt? (Utf8.encode text) (front.byteLength + 1) = some mark ↔ rest.head? = some mark := by
  rw [← byteLength_concat_of_lt hc]
  exact byteAt?_eq_some_iff (htext.trans (List.append_cons ..)) hmark

/-- What does not change at a byte that is not ASCII is the same within a character and behind
it. -/
theorem eq_behind_of_within {α : Type} {f : Nat → α} (htext : text = front ++ c :: rest)
    (hwide : ∀ place d, byteAt? (Utf8.encode text) place = some d → 0x80 ≤ d.toNat →
      f place = f (place + 1))
    {index : Nat} (hpositive : 0 < index) (hindex : index ≤ c.utf8Size) :
    f (front.byteLength + index) = f (front ++ [c]).byteLength := by
  rw [byteLength_concat]
  induction hsteps : c.utf8Size - index generalizing index with
  | zero =>
      obtain rfl : index = c.utf8Size := by omega
      rfl
  | succ steps ih =>
      have hlt : index < c.utf8Size := by omega
      obtain ⟨d, hd, hcode⟩ := byteAt?_encode_cons hlt rest
      rw [← byteAt?_encode_append front, ← htext] at hd
      -- A character with a byte behind its first one is not ASCII.
      have hother : 0x80 ≤ d.toNat := by
        rcases hcode with rfl | ⟨-, hd⟩
        · rw [Utf8.utf8Size_eq] at hlt
          split at hlt <;> omega
        · exact hd
      rw [hwide _ d hd hother]
      exact ih (Nat.succ_pos index) (by omega) (by omega)

/-- What changes neither at a given character of ASCII nor at a byte that is not ASCII is the same
in front of a character and behind it. -/
theorem eq_behind {α : Type} {f : Nat → α} (htext : text = front ++ c :: rest)
    (hascii : byteAt? (Utf8.encode text) front.byteLength = some c →
      f front.byteLength = f (front.byteLength + 1))
    (hwide : ∀ place d, byteAt? (Utf8.encode text) place = some d → 0x80 ≤ d.toNat →
      f place = f (place + 1)) :
    f front.byteLength = f (front ++ [c]).byteLength := by
  rw [← eq_behind_of_within htext hwide Nat.one_pos (Char.utf8Size_pos c)]
  obtain ⟨d, hd, rfl | ⟨-, hcode⟩⟩ := exists_byteAt?_of_cons htext
  · exact hascii hd
  · exact hwide _ d hd hcode

end Bytes

section Skips

/-- Whether a quote behind the text could separate digits. -/
def endsInDigit (text : Text) : Bool :=
  text.getLast?.any Char.isDigit

theorem endsInDigit_concat (front : Text) (c : Char) : endsInDigit (front ++ [c]) = c.isDigit := by
  rw [endsInDigit, List.getLast?_concat, Option.any_some]

/-- Reading on behind `front` in a context, as long as it is no code, comes to the end of the text,
to code, or to a newline that ends the context. There the text is cut into `front'` and `rest'`. -/
inductive Skips : (front : Text) → Context → (rest front' rest' : Text) → Prop
  | ends {front : Text} {context : Context} : Skips front context [] front []
  | code {front rest : Text} : Skips front (.code (endsInDigit front)) rest front rest
  | newline {front rest : Text} {context : Context} (hcontext : context.isCode = false)
      (hnext : ∀ following, context.next '\n' following = .code false) :
      Skips front context ('\n' :: rest) front ('\n' :: rest)
  | skip {front rest front' rest' : Text} {context : Context} {c : Char}
      (hcontext : context.isCode = false)
      (hrest : Skips (front ++ [c]) (context.next c rest.head?) rest front' rest') :
      Skips front context (c :: rest) front' rest'

/-- Reading on behind `front` in a context comes to a place. -/
def SkipsTo (front : Text) (context : Context) (rest : Text) (place : Nat) : Prop :=
  ∃ front' rest', Skips front context rest front' rest' ∧ front'.byteLength = place

variable {context : Context} {front' rest' : Text} {place : Nat}

theorem Skips.append_eq (h : Skips front context rest front' rest') :
    front ++ rest = front' ++ rest' := by
  induction h with
  | ends => rfl
  | code => rfl
  | newline => rfl
  | skip hcontext hrest ih => rw [← ih, List.append_assoc, List.singleton_append]

theorem Skips.length_le (h : Skips front context rest front' rest') :
    rest'.length ≤ rest.length := by
  induction h with
  | ends => exact Nat.le_refl _
  | code => exact Nat.le_refl _
  | newline => exact Nat.le_refl _
  | skip hcontext hrest ih => exact Nat.le_succ_of_le ih

theorem SkipsTo.ends (htext : text = front ++ []) :
    SkipsTo front context [] (Utf8.encode text).length := by
  rw [htext, List.append_nil, Utf8.length_encode]
  exact ⟨front, [], .ends, rfl⟩

theorem SkipsTo.code {afterDigit : Bool} (h : endsInDigit front = afterDigit) (rest : Text) :
    SkipsTo front (.code afterDigit) rest front.byteLength :=
  ⟨front, rest, h ▸ .code, rfl⟩

theorem SkipsTo.skip (hcontext : context.isCode = false)
    (h : SkipsTo (front ++ [c]) (context.next c rest.head?) rest place) :
    SkipsTo front context (c :: rest) place := by
  obtain ⟨front', rest', hrest, hplace⟩ := h
  exact ⟨front', rest', .skip hcontext hrest, hplace⟩

end Skips

section Loops

theorem newlineFrom_of_ne {bytes : Bytes} {place : Nat} (hd : byteAt? bytes place = some d)
    (hnewline : d ≠ '\n') : newlineFrom bytes place = newlineFrom bytes (place + 1) := by
  rw [newlineFrom, hd]
  exact if_neg hnewline

theorem blockEnd_of_ne {bytes : Bytes} {place : Nat} (hd : byteAt? bytes place = some d)
    (hend : ¬(d = '*' ∧ byteAt? bytes (place + 1) = some '/')) :
    blockEnd bytes place = blockEnd bytes (place + 1) := by
  rw [blockEnd, hd]
  cases hnext : byteAt? bytes (place + 1) with
  | none => rw [blockEnd, hnext]
  | some second =>
      rw [hnext, Option.some.injEq] at hend
      exact if_neg hend

theorem skipsTo_newlineFrom (htext : text = front ++ rest) :
    SkipsTo front .lineComment rest (newlineFrom (Utf8.encode text) front.byteLength) := by
  induction rest generalizing front with
  | nil =>
      rw [newlineFrom, byteAt?_of_nil htext]
      exact .ends htext
  | cons c others ih =>
      by_cases hc : c = '\n'
      · subst hc
        refine ⟨front, '\n' :: others, .newline rfl fun _ => rfl, ?_⟩
        rw [newlineFrom, (byteAt?_eq_some_iff htext (by decide)).mpr rfl]
        rfl
      · have hstep := eq_behind (f := newlineFrom (Utf8.encode text)) htext
          (fun hd => newlineFrom_of_ne hd hc)
          fun place d hd hcode => newlineFrom_of_ne hd (ne_of_le_of_lt hcode (by decide))
        have hnext : Context.lineComment.next c others.head? = .lineComment := if_neg hc
        refine .skip rfl ?_
        rw [hstep, hnext]
        exact ih (htext.trans (List.append_cons ..))

theorem blockEnd_close (htext : text = front ++ '*' :: '/' :: rest) :
    blockEnd (Utf8.encode text) front.byteLength = (front ++ ['*'] ++ ['/']).byteLength := by
  rw [blockEnd, (byteAt?_eq_some_iff htext (by decide)).mpr rfl,
    (byteAt?_behind_eq_some_iff htext (by decide) (by decide)).mpr rfl,
    byteLength_concat_of_lt (by decide), byteLength_concat_of_lt (by decide)]
  rfl

theorem blockEnd_cons (htext : text = front ++ c :: rest)
    (hend : ¬(c = '*' ∧ rest.head? = some '/')) :
    blockEnd (Utf8.encode text) front.byteLength =
      blockEnd (Utf8.encode text) (front ++ [c]).byteLength := by
  refine eq_behind htext (fun hd => blockEnd_of_ne hd fun h => hend ?_) fun place d hd hcode =>
    blockEnd_of_ne hd fun h => ne_of_le_of_lt hcode (by decide) h.1
  obtain ⟨rfl, hslash⟩ := h
  exact ⟨rfl, (byteAt?_behind_eq_some_iff htext (by decide) (by decide)).mp hslash⟩

/-- In a block comment a star counts only together with the slash behind it, so that the loop need
not know of a star in front of it. -/
theorem skipsTo_blockEnd {afterStar : Bool} (htext : text = front ++ rest)
    (hstar : afterStar = true → rest.head? ≠ some '/') :
    SkipsTo front (.blockComment afterStar) rest
      (blockEnd (Utf8.encode text) front.byteLength) := by
  induction rest generalizing front afterStar with
  | nil =>
      rw [blockEnd, byteAt?_of_nil htext]
      exact .ends htext
  | cons c others ih =>
      refine .skip rfl ?_
      rw [Lexical.next_blockComment fun h hc => hstar h (by rw [hc]; rfl)]
      by_cases hend : c = '*' ∧ others.head? = some '/'
      · obtain ⟨rfl, hslash⟩ := hend
        obtain ⟨behind, rfl⟩ := List.head?_eq_some_iff.mp hslash
        rw [blockEnd_close htext]
        exact .skip rfl (.code (endsInDigit_concat _ _) behind)
      · rw [blockEnd_cons htext hend]
        exact ih (htext.trans (List.append_cons ..))
          fun hc hslash => hend ⟨eq_of_beq hc, hslash⟩

theorem quotedEnd_of_ne {bytes : Bytes} {mark : Char} {place : Nat}
    (hd : byteAt? bytes place = some d) (hescape : d ≠ '\\') (hmark : d ≠ mark)
    (hline : ¬(mark = '\'' ∧ d = '\n')) :
    quotedEnd bytes mark place = quotedEnd bytes mark (place + 1) := by
  rw [quotedEnd, hd]
  simp [hescape, hmark, hline]

theorem quotedEnd_of_le {bytes : Bytes} {mark : Char} {place : Nat} (hmark : mark.toNat < 0x80)
    (hd : byteAt? bytes place = some d) (hcode : 0x80 ≤ d.toNat) :
    quotedEnd bytes mark place = quotedEnd bytes mark (place + 1) :=
  quotedEnd_of_ne hd (ne_of_le_of_lt hcode (by decide)) (ne_of_le_of_lt hcode hmark)
    fun h => ne_of_le_of_lt hcode (by decide) h.2

theorem quotedEnd_backslash (mark : Char) (htext : text = front ++ '\\' :: rest) :
    quotedEnd (Utf8.encode text) mark front.byteLength =
      quotedEnd (Utf8.encode text) mark ((front ++ ['\\']).byteLength + 1) := by
  rw [quotedEnd, (byteAt?_eq_some_iff htext (by decide)).mpr rfl,
    byteLength_concat_of_lt (by decide)]
  rfl

/-- Behind a backslash the loop may come to a place within a character. -/
theorem quotedEnd_escape {mark : Char} (hmark : mark.toNat < 0x80)
    (htext : text = front ++ '\\' :: c :: rest) :
    quotedEnd (Utf8.encode text) mark front.byteLength =
      quotedEnd (Utf8.encode text) mark (front ++ ['\\'] ++ [c]).byteLength := by
  rw [quotedEnd_backslash mark htext]
  exact eq_behind_of_within (f := quotedEnd _ mark) (htext.trans (List.append_cons ..))
    (fun _ _ hd hcode => quotedEnd_of_le hmark hd hcode) Nat.one_pos (Char.utf8Size_pos c)

theorem quotedEnd_backslash_last (mark : Char) (htext : text = front ++ ['\\']) :
    quotedEnd (Utf8.encode text) mark front.byteLength = (Utf8.encode text).length := by
  have hlast : byteAt? (Utf8.encode text) ((front ++ ['\\']).byteLength + 1) = none := by
    rw [htext.trans (List.append_cons ..), byteAt?_encode_append]
    rfl
  rw [quotedEnd_backslash mark htext, quotedEnd, hlast]

theorem quotedEnd_mark {mark : Char} (hmark : mark.toNat < 0x80) (hescape : mark ≠ '\\')
    (htext : text = front ++ mark :: rest) :
    quotedEnd (Utf8.encode text) mark front.byteLength = (front ++ [mark]).byteLength := by
  rw [quotedEnd, (byteAt?_eq_some_iff htext hmark).mpr rfl, byteLength_concat_of_lt hmark]
  simp [hescape]

theorem skipsTo_quotedEnd {mark : Char} (hmark : mark = '"' ∨ mark = '\'')
    (htext : text = front ++ rest) :
    SkipsTo front (.quoted mark false) rest
      (quotedEnd (Utf8.encode text) mark front.byteLength) := by
  have hascii : mark.toNat < 0x80 := by rcases hmark with rfl | rfl <;> decide
  have hdigit : mark.isDigit = false := by rcases hmark with rfl | rfl <;> rfl
  -- A backslash takes a character along, so the induction is on the length of the text.
  induction hlength : rest.length using Nat.strongRecOn generalizing front rest with
  | ind length ih =>
  cases rest with
  | nil =>
      rw [quotedEnd, byteAt?_of_nil htext]
      exact .ends htext
  | cons c others =>
      have hrest := htext.trans (List.append_cons ..)
      rw [List.length_cons] at hlength
      by_cases hescape : c = '\\'
      · subst hescape
        cases others with
        | nil =>
            rw [quotedEnd_backslash_last mark htext]
            exact .skip rfl (.ends hrest)
        | cons d behind =>
            rw [quotedEnd_escape hascii htext]
            rw [List.length_cons] at hlength
            exact .skip rfl (.skip rfl
              (ih behind.length (by omega) (hrest.trans (List.append_cons ..)) rfl))
      by_cases hclose : c = mark
      · subst hclose
        have hnext : (Context.quoted c false).next c others.head? = .code false := by
          simp [Context.next, hescape]
        refine .skip rfl ?_
        rw [quotedEnd_mark hascii hescape htext, hnext]
        exact .code ((endsInDigit_concat front c).trans hdigit) others
      by_cases hline : mark = '\'' ∧ c = '\n'
      · obtain ⟨rfl, rfl⟩ := hline
        refine ⟨front, '\n' :: others, .newline rfl fun _ => rfl, ?_⟩
        rw [quotedEnd, (byteAt?_eq_some_iff htext (by decide)).mpr rfl]
        rfl
      · have hnext : (Context.quoted mark false).next c others.head? = .quoted mark false := by
          simp [Context.next, hescape, hclose, hline]
        have hstep := eq_behind (f := quotedEnd (Utf8.encode text) mark) htext
          (fun hd => quotedEnd_of_ne hd hescape hclose hline)
          fun _ _ hd hcode => quotedEnd_of_le hascii hd hcode
        refine .skip rfl ?_
        rw [hstep, hnext]
        exact ih others.length (by omega) hrest rfl

end Loops

section Comments

theorem commentEnd?_of_ne {bytes : Bytes} {place : Nat} (hslash : byteAt? bytes place ≠ some '/') :
    commentEnd? bytes place = .ok none :=
  if_neg hslash

/-- Where no comment begins, none is found. -/
theorem commentEnd?_eq_none (htext : text = front ++ c :: rest)
    (h : Lexical.opensComment c rest.head? = false) :
    commentEnd? (Utf8.encode text) front.byteLength = .ok none := by
  by_cases hc : c = '/'
  · subst hc
    obtain ⟨hline, hblock⟩ : rest.head? ≠ some '/' ∧ rest.head? ≠ some '*' := by
      simpa [Lexical.opensComment] using h
    have hbehind : ∀ mark : Char, mark.toNat < 0x80 → rest.head? ≠ some mark →
        byteAt? (Utf8.encode text) (front.byteLength + 1) ≠ some mark := fun mark hmark =>
      mt (byteAt?_behind_eq_some_iff htext (by decide) hmark).mp
    rw [commentEnd?, if_pos ((byteAt?_eq_some_iff htext (by decide)).mpr rfl),
      if_neg (hbehind '/' (by decide) hline), if_neg (hbehind '*' (by decide) hblock)]
  · apply commentEnd?_of_ne
    rw [ne_eq, byteAt?_eq_some_iff htext (by decide), List.head?_cons, Option.some.injEq]
    exact hc

/-- Where a comment begins, its end is found. -/
theorem exists_commentEnd? (htext : text = front ++ c :: rest)
    (h : Lexical.opensComment c rest.head? = true) (afterDigit : Bool) :
    ∃ stop, commentEnd? (Utf8.encode text) front.byteLength = .ok (some stop) ∧
      SkipsTo (front ++ [c]) ((Context.code afterDigit).next c rest.head?) rest stop := by
  obtain ⟨hslash, hnext⟩ := Bool.and_eq_true_iff.mp h
  obtain rfl := eq_of_beq hslash
  have hrest := htext.trans (List.append_cons ..)
  have hfirst : byteAt? (Utf8.encode text) front.byteLength = some '/' :=
    (byteAt?_eq_some_iff htext (by decide)).mpr rfl
  have hsecond : ∀ mark : Char, mark.toNat < 0x80 →
      (byteAt? (Utf8.encode text) (front.byteLength + 1) = some mark ↔
        rest.head? = some mark) := fun _ => byteAt?_behind_eq_some_iff htext (by decide)
  rw [commentEnd?, if_pos hfirst]
  by_cases hline : rest.head? = some '/'
  · have hstep : newlineFrom (Utf8.encode text) front.byteLength =
        newlineFrom (Utf8.encode text) (front ++ ['/']).byteLength := by
      rw [newlineFrom_of_ne hfirst (by decide), byteLength_concat_of_lt (by decide)]
    rw [if_pos ((hsecond '/' (by decide)).mpr hline), lineEnd,
      if_pos (Nat.le_of_lt (lt_length_of_byteAt? hfirst)), hstep, hline]
    exact ⟨_, rfl, skipsTo_newlineFrom hrest⟩
  · have hblock : rest.head? = some '*' := by simpa [hline] using hnext
    rw [if_neg (mt (hsecond '/' (by decide)).mp hline),
      if_pos ((hsecond '*' (by decide)).mpr hblock)]
    obtain ⟨inner, rfl⟩ := List.head?_eq_some_iff.mp hblock
    have htwo : front.byteLength + 2 = (front ++ ['/'] ++ ['*']).byteLength := by
      rw [byteLength_concat_of_lt (by decide), byteLength_concat_of_lt (by decide)]
    refine ⟨_, rfl, .skip rfl ?_⟩
    rw [htwo]
    exact skipsTo_blockEnd (hrest.trans (List.append_cons ..)) fun h => absurd h Bool.false_ne_true

end Comments

end MemberSplit.Checked
