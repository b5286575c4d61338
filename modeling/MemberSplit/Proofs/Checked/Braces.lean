import MemberSplit.Proofs.Brace.Closing
import MemberSplit.Proofs.Brace.Passage
import MemberSplit.Proofs.Checked.Skip
import MemberSplit.Proofs.Checked.Slice

/-!
# Braces among bytes

The braces that are found among the bytes of a text are those that reading its characters finds. So
a block ends at the same place, no brace closes a block that is not open, and the balance is the
same.
-/

namespace MemberSplit

namespace Brace

open Lexical (Context)

variable {mode : ScanMode} {context : Context} {offset : Nat} {text : Text}

/-- The braces that count in a text that begins at `offset` in the given context, with their
offsets. -/
def placesFrom (mode : ScanMode) (context : Context) (offset : Nat) : Text → List (Nat × Brace)
  | [] => []
  | c :: rest =>
    let others := placesFrom mode (nextContext mode context c rest.head?) (offset + c.utf8Size) rest
    match ofChar? context c with
    | some brace => (offset, brace) :: others
    | none => others

theorem placesFrom_of_none {c : Char} (h : ofChar? context c = none) (offset : Nat) (rest : Text) :
    placesFrom mode context offset (c :: rest) =
      placesFrom mode (nextContext mode context c rest.head?) (offset + c.utf8Size) rest := by
  rw [placesFrom, h]

theorem placesFrom_of_some {c : Char} {brace : Brace} (h : ofChar? context c = some brace)
    (offset : Nat) (rest : Text) : placesFrom mode context offset (c :: rest) = (offset, brace) ::
      placesFrom mode (nextContext mode context c rest.head?) (offset + c.utf8Size) rest := by
  rw [placesFrom, h]

theorem map_snd_placesFrom :
    (placesFrom mode context offset text).map Prod.snd = listFrom mode context text := by
  induction text generalizing context offset with
  | nil => rfl
  | cons c rest ih =>
      cases hbrace : ofChar? context c with
      | none => rw [placesFrom_of_none hbrace, ih, listFrom, hbrace]
      | some brace => rw [placesFrom_of_some hbrace, List.map_cons, ih, listFrom, hbrace]

theorem ofChar?_of_not_isCode (h : context.isCode = false) (c : Char) : ofChar? context c = none :=
  by rw [ofChar?, h]; rfl

end Brace

namespace Checked

open Lexical (Context)

variable {mode : ScanMode} {text front rest : Text} {c d : Char}

section Places

/-- What is skipped has no braces that count. -/
theorem Skips.placesFrom_eq {context : Context} {front' rest' : Text}
    (h : Skips front context rest front' rest') :
    Brace.placesFrom .lexical context front.byteLength rest =
      Brace.placesFrom .lexical (.code (endsInDigit front')) front'.byteLength rest' := by
  induction h with
  | ends => rfl
  | code => rfl
  | newline hcontext hnext =>
      rw [Brace.placesFrom_of_none (Brace.ofChar?_of_not_isCode hcontext _),
        Brace.placesFrom_of_none (by rfl), Brace.nextContext, hnext]
      rfl
  | skip hcontext hrest ih =>
      rw [Brace.placesFrom_of_none (Brace.ofChar?_of_not_isCode hcontext _), ← ih,
        byteLength_concat]
      rfl

/-- The context of the code behind a text. -/
def contextBehind (mode : ScanMode) (front : Text) : Context :=
  match mode with
  | .literal => .start
  | .lexical => .code (endsInDigit front)

theorem ofChar?_contextBehind (mode : ScanMode) (front : Text) (c : Char) :
    Brace.ofChar? (contextBehind mode front) c = Brace.ofChar? .start c := by
  cases mode <;> rfl

theorem eq_or_eq_of_ofChar? {brace : Brace} (h : Brace.ofChar? .start c = some brace) :
    c = '{' ∨ c = '}' := by
  by_contra hne
  obtain ⟨hopen, hclose⟩ := not_or.mp hne
  simp [Brace.ofChar?, Context.start, Context.isCode, hopen, hclose] at h

theorem nextContext_contextBehind (mode : ScanMode) (front : Text) (hc : c = '{' ∨ c = '}')
    (following : Option Char) :
    Brace.nextContext mode (contextBehind mode front) c following =
      contextBehind mode (front ++ [c]) := by
  cases mode with
  | literal => rfl
  | lexical =>
      have hbehind : contextBehind .lexical (front ++ [c]) = .code c.isDigit :=
        congrArg Context.code (endsInDigit_concat front c)
      rw [hbehind]
      rcases hc with rfl | rfl <;> rfl

end Places

section Steps

variable {bytes : Bytes} {place : Nat}

theorem bracesFrom_of_none (h : byteAt? bytes place = none) :
    bracesFrom mode bytes place = .ok [] := by
  rw [bracesFrom, h]

theorem bracesFrom_of_brace {brace : Brace} {others : List (Nat × Brace)}
    (hd : byteAt? bytes place = some d) (hbrace : Brace.ofChar? .start d = some brace)
    (hothers : bracesFrom mode bytes (place + 1) = .ok others) :
    bracesFrom mode bytes place = .ok ((place, brace) :: others) := by
  rw [bracesFrom, hd]
  simp only [hbrace, hothers]
  rfl

theorem bracesFrom_of_advance {next : Nat} (hd : byteAt? bytes place = some d)
    (hbrace : Brace.ofChar? .start d = none) (hnext : advance mode bytes place d = .ok next) :
    bracesFrom mode bytes place = bracesFrom mode bytes next := by
  rw [bracesFrom, hd]
  simp only [hbrace]
  split
  next fault hfault => cases hnext.symm.trans hfault
  next other hother =>
    obtain rfl := Except.ok.inj (hnext.symm.trans hother)
    rfl

/-- Whether a byte opens a quoted literal. -/
def OpensLiteral (bytes : Bytes) (place : Nat) (c : Char) : Prop :=
  c = '"' ∨ c = '\'' ∧ separatesDigits bytes place = false

theorem advance_of_opensLiteral (hcomment : commentEnd? bytes place = .ok none)
    (h : OpensLiteral bytes place c) :
    advance .lexical bytes place c = .ok (quotedEnd bytes c (place + 1)) := by
  have hliteral : literalEnd bytes place c = quotedEnd bytes c (place + 1) := by
    obtain rfl | ⟨rfl, hsingle⟩ := h
    · rfl
    · rw [literalEnd, hsingle]
      rfl
  rw [advance, hcomment, Except.map, Option.getD_none, hliteral]

theorem advance_of_not_opensLiteral (hcomment : commentEnd? bytes place = .ok none)
    (h : ¬OpensLiteral bytes place c) : advance mode bytes place c = .ok (place + 1) := by
  cases mode with
  | literal => rfl
  | lexical =>
      obtain ⟨hdouble, hsingle⟩ := not_or.mp h
      have hliteral : literalEnd bytes place c = place + 1 := by
        rw [literalEnd, if_neg hdouble, if_neg]
        simpa using hsingle
      rw [advance, hcomment, Except.map, Option.getD_none, hliteral]

theorem ofChar?_start_eq_none_of_le (hd : 0x80 ≤ d.toNat) : Brace.ofChar? .start d = none := by
  apply Option.eq_none_iff_forall_ne_some.mpr
  intro brace hbrace
  obtain hopen | hclose := eq_or_eq_of_ofChar? hbrace
  · exact ne_of_le_of_lt hd (by decide) hopen
  · exact ne_of_le_of_lt hd (by decide) hclose

/-- A byte that is not ASCII is gone past alone. -/
theorem bracesFrom_of_le (hd : byteAt? bytes place = some d) (hcode : 0x80 ≤ d.toNat) :
    bracesFrom mode bytes place = bracesFrom mode bytes (place + 1) := by
  have hne : ∀ mark : Char, mark.toNat < 0x80 → d ≠ mark := fun _ => ne_of_le_of_lt hcode
  refine bracesFrom_of_advance hd (ofChar?_start_eq_none_of_le hcode)
    (advance_of_not_opensLiteral ?_ ?_)
  · apply commentEnd?_of_ne
    rw [hd]
    exact mt Option.some.inj (hne '/' (by decide))
  · rintro (hdouble | ⟨hsingle, -⟩)
    · exact hne '"' (by decide) hdouble
    · exact hne '\'' (by decide) hsingle

end Steps

section Digits

theorem toNat_lt_of_isHexDigit (h : Context.isHexDigit c = true) : c.toNat < 0x80 := by
  have hle : ∀ bound : Char, c ≤ bound → c.toNat ≤ bound.toNat := fun bound h =>
    UInt32.le_iff_toNat_le.mp h
  simp only [Context.isHexDigit, Char.isDigit, Bool.or_eq_true, Bool.and_eq_true,
    decide_eq_true_eq] at h
  obtain (⟨-, hdigit⟩ | ⟨-, hlower⟩) | ⟨-, hupper⟩ := h
  · exact Nat.lt_of_le_of_lt (hle '9' hdigit) (by decide)
  · exact Nat.lt_of_le_of_lt (hle 'f' hlower) (by decide)
  · exact Nat.lt_of_le_of_lt (hle 'F' hupper) (by decide)

theorem toNat_lt_of_isDigit (h : c.isDigit = true) : c.toNat < 0x80 :=
  toNat_lt_of_isHexDigit (by rw [Context.isHexDigit, h]; rfl)

/-- The byte in front of a cut is a digit exactly if the character there is one. -/
theorem any_byteBefore? (htext : text = front ++ rest) :
    (byteBefore? (Utf8.encode text) front.byteLength).any Char.isDigit = endsInDigit front := by
  rcases List.eq_nil_or_concat front with rfl | ⟨init, last, rfl⟩
  · rfl
  · rw [List.concat_eq_append] at htext ⊢
    rw [List.append_assoc, List.singleton_append] at htext
    have hpositive := Char.utf8Size_pos last
    obtain ⟨size, hsize⟩ := Nat.exists_eq_add_of_le' hpositive
    obtain ⟨d, hd, hcode⟩ := byteAt?_encode_cons (c := last) (by omega : size < last.utf8Size) rest
    rw [← byteAt?_encode_append init, ← htext] at hd
    rw [byteLength_concat, hsize, ← Nat.add_assoc, byteBefore?, hd, Option.any_some,
      endsInDigit_concat]
    rcases hcode with rfl | ⟨hlast, hcode⟩
    · rfl
    · rw [Bool.eq_iff_iff]
      exact iff_of_false (fun h => absurd (toNat_lt_of_isDigit h) (Nat.not_lt.mpr hcode))
        fun h => absurd (toNat_lt_of_isDigit h) (Nat.not_lt.mpr hlast)

/-- Whether a single quote separates digits can be told from its bytes. -/
theorem separatesDigits_eq (htext : text = front ++ '\'' :: rest) :
    separatesDigits (Utf8.encode text) front.byteLength =
      (endsInDigit front && rest.head?.any Context.isHexDigit) := by
  have hnext := any_byteAt? (fun _ => toNat_lt_of_isHexDigit) (htext.trans (List.append_cons ..))
  rw [byteLength_concat_of_lt (by decide)] at hnext
  rw [separatesDigits, any_byteBefore? htext, hnext]

end Digits

section Runs

theorem next_of_not_opensComment {afterDigit : Bool} {following : Option Char}
    (hcomment : Lexical.opensComment c following = false) (hdouble : c ≠ '"')
    (hsingle : c = '\'' → (afterDigit && following.any Context.isHexDigit) = true) :
    (Context.code afterDigit).next c following = .code c.isDigit := by
  by_cases hslash : c = '/'
  · subst hslash
    obtain ⟨hline, hblock⟩ : following ≠ some '/' ∧ following ≠ some '*' := by
      simpa [Lexical.opensComment] using hcomment
    simp only [Context.next, hline, hblock, if_true, if_false]
    rfl
  · by_cases hquote : c = '\''
    · subst hquote
      simp only [Context.next, hsingle rfl]
      rfl
    · simp only [Context.next, hslash, hdouble, hquote, if_false]

theorem next_of_opensLiteral (htext : text = front ++ c :: rest)
    (h : OpensLiteral (Utf8.encode text) front.byteLength c) :
    (Context.code (endsInDigit front)).next c rest.head? = .quoted c false := by
  obtain rfl | ⟨rfl, hsingle⟩ := h
  · rfl
  · rw [separatesDigits_eq htext] at hsingle
    simp [Context.next, hsingle]

theorem next_of_not_opensLiteral (htext : text = front ++ c :: rest)
    (hcomment : Lexical.opensComment c rest.head? = false)
    (h : ¬OpensLiteral (Utf8.encode text) front.byteLength c) :
    (Context.code (endsInDigit front)).next c rest.head? = .code c.isDigit := by
  obtain ⟨hdouble, hsingle⟩ := not_or.mp h
  refine next_of_not_opensComment hcomment hdouble fun hc => ?_
  subst hc
  rw [← separatesDigits_eq htext]
  simpa using hsingle

/-- From a character of code that is no brace, the loop comes to the end of what begins with it. -/
theorem exists_bracesFrom_eq (htext : text = front ++ c :: rest)
    (hbrace : Brace.ofChar? .start c = none) :
    ∃ place, SkipsTo (front ++ [c]) (Context.next (.code (endsInDigit front)) c rest.head?) rest
        place ∧
      bracesFrom .lexical (Utf8.encode text) front.byteLength =
        bracesFrom .lexical (Utf8.encode text) place := by
  have hrest := htext.trans (List.append_cons ..)
  have hbyte : c.toNat < 0x80 → byteAt? (Utf8.encode text) front.byteLength = some c :=
    fun hc => (byteAt?_eq_some_iff htext hc).mpr rfl
  cases hopens : Lexical.opensComment c rest.head? with
  | true =>
      obtain ⟨stop, hstop, hskips⟩ := exists_commentEnd? htext hopens (endsInDigit front)
      obtain rfl : c = '/' := by
        obtain ⟨hslash, -⟩ := Bool.and_eq_true_iff.mp hopens
        exact eq_of_beq hslash
      refine ⟨stop, hskips, bracesFrom_of_advance (hbyte (by decide)) hbrace ?_⟩
      rw [advance, hstop]
      rfl
  | false =>
      have hcomment := commentEnd?_eq_none htext hopens
      by_cases hliteral : OpensLiteral (Utf8.encode text) front.byteLength c
      · have hmark : c = '"' ∨ c = '\'' := hliteral.imp_right And.left
        have hascii : c.toNat < 0x80 := by rcases hmark with rfl | rfl <;> decide
        have hstep := bracesFrom_of_advance (hbyte hascii) hbrace
          (advance_of_opensLiteral hcomment hliteral)
        rw [← byteLength_concat_of_lt hascii] at hstep
        rw [next_of_opensLiteral htext hliteral]
        exact ⟨_, skipsTo_quotedEnd hmark hrest, hstep⟩
      · have hstep := eq_behind (f := bracesFrom .lexical (Utf8.encode text)) htext
          (fun hd => bracesFrom_of_advance hd hbrace
            (advance_of_not_opensLiteral hcomment hliteral))
          fun _ _ hd hcode => bracesFrom_of_le hd hcode
        rw [next_of_not_opensLiteral htext hopens hliteral]
        exact ⟨_, .code (endsInDigit_concat front c) rest, hstep⟩

/-- The braces behind a cut of a text are those that reading the characters finds there. -/
theorem bracesFrom_eq_placesFrom (mode : ScanMode) (htext : text = front ++ rest) :
    bracesFrom mode (Utf8.encode text) front.byteLength =
      .ok (Brace.placesFrom mode (contextBehind mode front) front.byteLength rest) := by
  -- The loop goes past a comment or a literal at once, so the induction is on the length.
  induction hlength : rest.length using Nat.strongRecOn generalizing front rest with
  | ind length ih =>
  cases rest with
  | nil => exact bracesFrom_of_none (byteAt?_of_nil htext)
  | cons c others =>
      have hrest := htext.trans (List.append_cons ..)
      rw [List.length_cons] at hlength
      cases hbrace : Brace.ofChar? .start c with
      | some brace =>
          have hc := eq_or_eq_of_ofChar? hbrace
          have hascii : c.toNat < 0x80 := by rcases hc with rfl | rfl <;> decide
          have hothers := ih others.length (by omega) hrest rfl
          rw [byteLength_concat_of_lt hascii] at hothers
          rw [bracesFrom_of_brace ((byteAt?_eq_some_iff htext hascii).mpr rfl) hbrace hothers,
            Brace.placesFrom_of_some ((ofChar?_contextBehind mode front c).trans hbrace),
            nextContext_contextBehind mode front hc, (Utf8.encodeChar_of_lt hascii).2]
      | none =>
          rw [Brace.placesFrom_of_none ((ofChar?_contextBehind mode front c).trans hbrace),
            ← byteLength_concat]
          cases mode with
          | literal =>
              have hstep := eq_behind (f := bracesFrom .literal (Utf8.encode text)) htext
                (fun hd => bracesFrom_of_advance hd hbrace rfl)
                fun _ _ hd hcode => bracesFrom_of_le hd hcode
              rw [hstep]
              exact ih others.length (by omega) hrest rfl
          | lexical =>
              obtain ⟨place, ⟨front', rest', hskips, rfl⟩, hstep⟩ :=
                exists_bracesFrom_eq htext hbrace
              have hshort := hskips.length_le
              rw [hstep, ih rest'.length (by omega) (hrest.trans hskips.append_eq) rfl]
              exact congrArg Except.ok hskips.placesFrom_eq.symm

end Runs

section Results

open Block (lengthFrom?)

/-- The depth is never counted down from zero, and the block ends where reading its characters ends
it. -/
theorem closingFrom_placesFrom (mode : ScanMode) (context : Context) (depth offset : Nat)
    (text : Text) : closingFrom (depth + 1) (Brace.placesFrom mode context offset text) =
      .ok ((lengthFrom? mode context depth text).map fun length => offset + length - 1) := by
  induction text generalizing context depth offset with
  | nil => rfl
  | cons c rest ih =>
      have hfurther : ∀ depth,
          closingFrom (depth + 1) (Brace.placesFrom mode
            (Brace.nextContext mode context c rest.head?) (offset + c.utf8Size) rest) =
          .ok (((lengthFrom? mode (Brace.nextContext mode context c rest.head?) depth rest).map
            (c.utf8Size + ·)).map fun length => offset + length - 1) := by
        intro depth
        rw [ih, Option.map_map]
        simp only [Function.comp_def, Nat.add_assoc]
      rw [Block.lengthFrom?_cons]
      cases hbrace : Brace.ofChar? context c with
      | none =>
          rw [Brace.placesFrom_of_none hbrace]
          exact hfurther depth
      | some brace =>
          rw [Brace.placesFrom_of_some hbrace]
          cases brace with
          | opening => exact hfurther (depth + 1)
          | closing =>
              cases depth with
              | zero =>
                  obtain rfl := Brace.eq_of_ofChar?_closing hbrace
                  rfl
              | succ depth => exact hfurther depth

theorem closingBrace?_eq_ok (mode : ScanMode) (htext : text = front ++ '{' :: rest) :
    closingBrace? text front.byteLength mode =
      .ok (Block.closingBrace? text front.byteLength mode) := by
  have hbraces := bracesFrom_eq_placesFrom mode (htext.trans (List.append_cons ..))
  have hstart : contextBehind mode (front ++ ['{']) = .start := by
    cases mode with
    | literal => rfl
    | lexical => exact congrArg Context.code (endsInDigit_concat front '{')
  have hlength : ∀ length, front.byteLength + 1 + length - 1 = front.byteLength + length := by
    intro length
    omega
  rw [byteLength_concat_of_lt (by decide), hstart] at hbraces
  rw [closingBrace?, if_pos ((byteAt?_eq_some_iff htext (by decide)).mpr rfl), hbraces, ok_bind,
    closingFrom_placesFrom, htext, Block.closingBrace?_brace, lengthFrom?, Option.map_map]
  simp only [Function.comp_def, hlength]
  rfl

theorem balance_eq_ok (mode : ScanMode) (text : Text) :
    balance mode text = .ok (Balance.ofText mode text) := by
  have hbraces := bracesFrom_eq_placesFrom mode (List.nil_append text).symm
  have hstart : contextBehind mode [] = .start := by cases mode <;> rfl
  rw [Text.byteLength_nil, hstart] at hbraces
  rw [balance, hbraces, ok_bind, Brace.map_snd_placesFrom]
  rfl

end Results

end Checked

end MemberSplit
