import MemberSplit.Proofs.Signature.Mention

/-!
# Texts without signatures

Between two definitions the search for signatures finds nothing, whatever comes later. At the start
of a line a signature is ruled out in two ways: the line begins with a character that no signature
begins with, or no mention of the owner is found before a character that no return type holds.
-/

namespace MemberSplit.Signature

namespace Pattern

variable {pattern : Pattern} {before : Option Char} {text behind : Text}

theorem atOwner?_eq_none (h : Text.afterWord? pattern.qualifier before text = none) :
    pattern.atOwner? before text = none := by
  rw [atOwner?, h]

/-- A return type cannot reach beyond a character that it cannot hold, unless a mention of the owner
comes before. -/
theorem inResult?_eq_none {c d : Char} (hlast : text.getLast? = some c)
    (hstop : c ∉ pattern.qualifier ∧ pattern.isResultChar c = false)
    (h : pattern.Unmentioned (some d) text) (behind : Text) :
    pattern.inResult? d (text ++ behind) = none := by
  induction text generalizing d with
  | nil => cases hlast
  | cons e rest ih =>
      have hends : ∀ c', (e :: rest).getLast? = some c' → c' ∉ pattern.qualifier := by
        intro c' hc'
        obtain rfl := Option.some.inj (hlast.symm.trans hc')
        exact hstop.1
      have hnone := atOwner?_eq_none (afterWord?_append (List.cons_ne_nil e rest) hends h.1 behind)
      rw [List.cons_append] at hnone ⊢
      unfold inResult?
      rw [hnone]
      simp only
      split
      next hresult =>
        cases rest with
        | nil =>
            obtain rfl : e = c := by simpa using hlast
            rw [hstop.2] at hresult
            cases hresult
        | cons f others =>
            have hlast' : (f :: others).getLast? = some c := by
              simpa [List.getLast?_cons] using hlast
            rw [ih hlast' h.2]
            rfl
      next => rfl

/-- Going on through a return type that mentions the owner nowhere. -/
theorem inResult?_of_unmentioned {d : Char} (hchars : ∀ c ∈ text, pattern.isResultChar c = true)
    (hends : ∀ c, text.getLast? = some c → c ∉ pattern.qualifier)
    (h : pattern.Unmentioned (some d) text) (behind : Text) :
    pattern.inResult? d (text ++ behind) =
      (pattern.inResult? (text.getLast?.getD d) behind).map (extendResult text) := by
  induction text generalizing d with
  | nil =>
      have hid : extendResult [] = id := rfl
      rw [hid, Option.map_id, List.nil_append]
      rfl
  | cons e rest ih =>
      have hnone := atOwner?_eq_none (afterWord?_append (List.cons_ne_nil e rest) hends h.1 behind)
      have hrest : ∀ c, rest.getLast? = some c → c ∉ pattern.qualifier := by
        intro c hc
        apply hends
        rw [List.getLast?_cons, hc]
        rfl
      have hlater := ih (fun c hc => hchars c (List.mem_cons_of_mem _ hc)) hrest h.2
      rw [List.cons_append] at hnone ⊢
      conv_lhs => unfold inResult?
      rw [hnone]
      simp only
      rw [if_pos (hchars e List.mem_cons_self), hlater, Option.map_map, List.getLast?_cons]
      rfl

theorem isResultChar_eq_false {c : Char} (hblank : isBlank c = false)
    (hword : isWordChar c = false) (hmark : "*&:<>,.".toList.contains c = false) :
    pattern.isResultChar c = false := by
  have hgap : pattern.layout.isGap c = false := Layout.isGap_eq_false hblank
  rw [isResultChar, hgap, hword, hmark]
  rfl

theorem isResultChar_of_isLineBlank {c : Char} (h : isLineBlank c = true) :
    pattern.isResultChar c = true := by
  have hgap : pattern.layout.isGap c = true := Layout.isGap_of_isLineBlank h
  simp [isResultChar, hgap]

/-- Whether a signature can begin with the character, apart from blanks. -/
def opens (c : Char) : Bool :=
  isIdentStart c || c == ':'

theorem withResult?_eq_none (h : text.head?.any opens = false) :
    pattern.withResult? text = none := by
  cases text with
  | nil => rfl
  | cons c rest =>
      have hc : ¬(isIdentStart c || c == ':') = true := by simpa [opens] using h
      rw [withResult?, if_neg hc]

/-- No signature begins with a character that cannot open one. -/
theorem match?_eq_none_of_head? (hproper : pattern.IsProper)
    (h : (text.dropWhile isLineBlank).head?.any opens = false) :
    pattern.match? text = none := by
  have howner : pattern.atOwner? (text.takeWhile isLineBlank).getLast?
      (text.dropWhile isLineBlank) = none := by
    apply atOwner?_eq_none
    apply afterWord?_eq_none_of_not_isPrefix
    rintro ⟨rest, hrest⟩
    obtain ⟨c, others, hfirst, hstart⟩ := hproper.first
    rw [← hrest, qualifier, hfirst] at h
    simp [opens, hstart] at h
  rw [match?, withResult?_eq_none h, howner]
  rfl

theorem isResultChar_of_opens {c : Char} (h : opens c = true) : pattern.isResultChar c = true := by
  rcases Bool.or_eq_true_iff.mp h with hstart | hcolon
  · simp [isResultChar, isWordChar_of_isIdentStart hstart]
  · rw [eq_of_beq hcolon]
    simp [isResultChar]

theorem withResult?_eq_none_of_unmentioned {c d : Char} (hlast : (d :: text).getLast? = some c)
    (hstop : c ∉ pattern.qualifier ∧ pattern.isResultChar c = false)
    (h : pattern.Unmentioned (some d) text) (behind : Text) :
    pattern.withResult? (d :: (text ++ behind)) = none := by
  rw [withResult?]
  split
  next hopens =>
    cases text with
    | nil =>
        obtain rfl : d = c := by simpa using hlast
        rw [isResultChar_of_opens hopens] at hstop
        cases hstop.2
    | cons e others =>
        have hlast' : (e :: others).getLast? = some c := by
          simpa [List.getLast?_cons] using hlast
        rw [inResult?_eq_none hlast' hstop h]
        rfl
  next => rfl

theorem inWord_getLast?_of_blanks {blanks : Text} (h : ∀ c ∈ blanks, isLineBlank c = true) :
    Text.inWord blanks.getLast? = false := by
  cases hlast : blanks.getLast? with
  | none => rfl
  | some c => rcases eq_of_isLineBlank (h c (List.mem_of_getLast? hlast)) with rfl | rfl <;> decide

/-- No signature begins in a text without a mention, if the text ends in a character that no return
type holds. -/
theorem match?_eq_none_of_unmentioned {c : Char} (hproper : pattern.IsProper)
    (hlast : text.getLast? = some c) (hstop : pattern.isResultChar c = false)
    (hbefore : Text.inWord before = false) (h : pattern.Unmentioned before text)
    (behind : Text) : pattern.match? (text ++ behind) = none := by
  have hqualifier := hproper.not_mem_qualifier hstop
  obtain ⟨blanks, inner, rfl, hblanks, hhead⟩ : ∃ blanks inner, text = blanks ++ inner ∧
      (∀ d ∈ blanks, isLineBlank d = true) ∧ inner.head?.any isLineBlank = false := by
    refine ⟨text.takeWhile isLineBlank, text.dropWhile isLineBlank,
      List.takeWhile_append_dropWhile.symm, fun _ => List.mem_takeWhile_imp, ?_⟩
    have hnot := List.head?_dropWhile_not isLineBlank text
    cases hfirst : (text.dropWhile isLineBlank).head? with
    | none => rfl
    | some d => simpa [hfirst] using hnot
  have hne : inner ≠ [] := by
    rintro rfl
    rw [List.append_nil] at hlast
    rw [isResultChar_of_isLineBlank (hblanks c (List.mem_of_getLast? hlast))] at hstop
    cases hstop
  have hlast' : inner.getLast? = some c := by
    rwa [List.getLast?_append_of_ne_nil _ hne] at hlast
  have hends : ∀ d, inner.getLast? = some d → d ∉ pattern.qualifier := by
    intro d hd
    obtain rfl := Option.some.inj (hlast'.symm.trans hd)
    exact hqualifier
  have hinner : pattern.Unmentioned blanks.getLast? inner := by
    apply h.of_append.congr
    have hblank := inWord_getLast?_of_blanks hblanks
    cases hcase : blanks.getLast? with
    | none => exact hbefore
    | some d => rfl
  have hhead' : (inner ++ behind).head?.any isLineBlank = false := by
    rwa [List.head?_append_of_ne_nil _ hne]
  obtain ⟨d, others, rfl⟩ := List.exists_cons_of_ne_nil hne
  have howner := atOwner?_eq_none (afterWord?_append hne hends hinner.1 behind)
  have hresult := withResult?_eq_none_of_unmentioned hlast' ⟨hqualifier, hstop⟩ hinner.2 behind
  rw [match?, List.append_assoc, Text.takeWhile_run hblanks hhead',
    Text.dropWhile_run hblanks hhead', howner, List.cons_append, hresult]
  rfl

/-- No signature begins in the text, whatever is put behind it; `atLineStart` says whether a line
begins at the text. -/
def Barren (pattern : Pattern) : (atLineStart : Bool) → Text → Prop
  | _, [] => True
  | atLineStart, c :: rest =>
    (atLineStart = true → ∀ behind, pattern.match? (c :: rest ++ behind) = none) ∧
      Barren pattern (c == '\n') rest

/-- Whether a line begins behind a text, if one begins at it or not. -/
def lineStartsBehind (atLineStart : Bool) (text : Text) : Bool :=
  text.getLast?.elim atLineStart (· == '\n')

variable {atLineStart : Bool} {front back : Text}

theorem lineStartsBehind_cons (c : Char) (rest : Text) :
    lineStartsBehind atLineStart (c :: rest) = lineStartsBehind (c == '\n') rest := by
  rw [lineStartsBehind, lineStartsBehind, List.getLast?_cons]
  cases rest.getLast? <;> rfl

theorem lineStartsBehind_append :
    lineStartsBehind atLineStart (front ++ back) =
      lineStartsBehind (lineStartsBehind atLineStart front) back := by
  induction front generalizing atLineStart with
  | nil => rfl
  | cons c rest ih => rw [List.cons_append, lineStartsBehind_cons, lineStartsBehind_cons, ih]

theorem Barren.append (hfront : pattern.Barren atLineStart front)
    (hback : pattern.Barren (lineStartsBehind atLineStart front) back) :
    pattern.Barren atLineStart (front ++ back) := by
  induction front generalizing atLineStart with
  | nil => exact hback
  | cons c rest ih =>
      rw [lineStartsBehind_cons] at hback
      refine ⟨?_, ih hfront.2 hback⟩
      intro hstart behind
      have hnone := hfront.1 hstart (back ++ behind)
      simpa using hnone

theorem signaturesFrom_of_match? {parts : Parts} {afterBrace : Text}
    (h : pattern.match? text = some (parts, afterBrace)) (offset : Nat) :
    pattern.signaturesFrom offset true text =
      { start := offset, head := parts.text pattern, afterBrace, parts } ::
        pattern.signaturesFrom (offset + (parts.text pattern).byteLength + 1) false
          afterBrace := by
  cases text with
  | nil =>
      have htext := match?_append h
      simp at htext
  | cons c rest =>
      rw [signaturesFrom]
      split
      next parts' afterBrace' hmatch =>
        rw [if_pos rfl, h] at hmatch
        obtain ⟨rfl, rfl⟩ := Prod.mk.inj (Option.some.inj hmatch)
        rfl
      next hnone =>
        rw [if_pos rfl, h] at hnone
        cases hnone

theorem signaturesFrom_cons_of_none {c : Char} {rest : Text}
    (h : atLineStart = true → pattern.match? (c :: rest) = none) (offset : Nat) :
    pattern.signaturesFrom offset atLineStart (c :: rest) =
      pattern.signaturesFrom (offset + c.utf8Size) (c == '\n') rest := by
  have hnone : (if atLineStart then pattern.match? (c :: rest) else none) = none := by
    cases atLineStart with
    | true => exact h rfl
    | false => rfl
  rw [signaturesFrom]
  split
  next parts afterBrace hmatch =>
    rw [hnone] at hmatch
    cases hmatch
  next => rfl

/-- The search finds nothing in a barren text, and goes on behind it. -/
theorem Barren.signaturesFrom_append (h : pattern.Barren atLineStart text) (offset : Nat)
    (behind : Text) :
    pattern.signaturesFrom offset atLineStart (text ++ behind) =
      pattern.signaturesFrom (offset + text.byteLength) (lineStartsBehind atLineStart text)
        behind := by
  induction text generalizing offset atLineStart with
  | nil => rfl
  | cons c rest ih =>
      have hnone : atLineStart = true → pattern.match? (c :: (rest ++ behind)) = none :=
        fun hstart => h.1 hstart behind
      rw [List.cons_append, signaturesFrom_cons_of_none hnone, lineStartsBehind_cons,
        Text.byteLength, ← Nat.add_assoc, ← ih h.2]

/-- A text that ends in a character that no return type holds, and mentions the owner nowhere, is
barren. -/
theorem barren_of_unmentioned {c : Char} (hproper : pattern.IsProper)
    (hlast : text.getLast? = some c) (hstop : pattern.isResultChar c = false)
    (hbefore : atLineStart = true → Text.inWord before = false)
    (h : pattern.Unmentioned before text) : pattern.Barren atLineStart text := by
  induction text generalizing atLineStart before with
  | nil => exact trivial
  | cons d rest ih =>
      refine ⟨?_, ?_⟩
      · intro hstart
        exact match?_eq_none_of_unmentioned hproper hlast hstop (hbefore hstart) h
      · cases rest with
        | nil => exact trivial
        | cons e others =>
            have hlast' : (e :: others).getLast? = some c := by
              simpa [List.getLast?_cons] using hlast
            apply ih hlast' _ h.2
            intro hnewline
            rw [eq_of_beq hnewline]
            decide

theorem match?_append_eq_none {c : Char} {rest : Text} (hproper : pattern.IsProper)
    (htext : text.dropWhile isLineBlank = c :: rest) (hc : opens c = false) (behind : Text) :
    pattern.match? (text ++ behind) = none := by
  apply match?_eq_none_of_head? hproper
  rw [List.dropWhile_append, htext]
  exact hc

theorem barren_of_not_mem (h : '\n' ∉ text) : pattern.Barren false text := by
  induction text with
  | nil => exact trivial
  | cons c rest ih =>
      have hc : (c == '\n') = false := by
        rw [beq_eq_false_iff_ne]
        rintro rfl
        exact h List.mem_cons_self
      refine ⟨(fun hstart => by cases hstart), ?_⟩
      rw [hc]
      exact ih fun hmem => h (List.mem_cons_of_mem _ hmem)

/-- A line is barren if, blanks apart, it begins with nothing that can open a signature. -/
theorem barren_line {line rest : Text} {c : Char} (hproper : pattern.IsProper)
    (hline : '\n' ∉ line) (hhead : (line ++ ['\n']).dropWhile isLineBlank = c :: rest)
    (hc : opens c = false) : pattern.Barren atLineStart (line ++ ['\n']) := by
  have hnone := match?_append_eq_none hproper hhead hc
  cases line with
  | nil => exact ⟨fun _ => hnone, trivial⟩
  | cons d others =>
      have hd : (d == '\n') = false := by
        rw [beq_eq_false_iff_ne]
        rintro rfl
        exact hline List.mem_cons_self
      have hothers : '\n' ∉ others := fun hmem => hline (List.mem_cons_of_mem _ hmem)
      refine ⟨fun _ => hnone, ?_⟩
      rw [hd]
      apply (barren_of_not_mem hothers).append
      refine ⟨fun hstart behind => ?_, trivial⟩
      -- The newline itself does not begin a line here.
      cases hlast : others.getLast? with
      | none =>
          rw [lineStartsBehind, hlast] at hstart
          cases hstart
      | some e =>
          rw [lineStartsBehind, hlast] at hstart
          obtain rfl : e = '\n' := eq_of_beq hstart
          exact absurd (List.mem_of_getLast? hlast) hothers

end Pattern

end MemberSplit.Signature
