import MemberSplit.Header
import MemberSplit.Proofs.Signature.Mention
import MemberSplit.Proofs.Text.Words

/-!
# Where the body of a type opens

From the keyword of a type to the brace that opens its body there is no semicolon and no other
brace. So what a search from a keyword finds is told by the text up to the first of these: it finds
nothing, or what follows the brace.
-/

namespace MemberSplit

namespace Text

variable {p : Char → Bool} {stop : Char}

theorem takeWhile_append_stop (hstop : p stop = false) (front rest : Text) :
    (front ++ stop :: rest).takeWhile p = front.takeWhile p := by
  induction front with
  | nil => rw [List.nil_append, List.takeWhile_cons_of_neg (by simp [hstop]), List.takeWhile_nil]
  | cons c others ih => simp [List.takeWhile_cons, ih]

theorem dropWhile_append_stop (hstop : p stop = false) (front rest : Text) :
    (front ++ stop :: rest).dropWhile p = front.dropWhile p ++ stop :: rest := by
  induction front with
  | nil => rw [List.nil_append, List.dropWhile_cons_of_neg (by simp [hstop]), List.dropWhile_nil,
      List.nil_append]
  | cons c others ih => cases hc : p c <;> simp [hc, ih]

/-- A lead without the character `stop` ends in front of it. -/
theorem dropLead?_append_stop {lead : Text} (hstop : stop ∉ lead) (front rest : Text) :
    dropLead? (front ++ stop :: rest) lead =
      (dropLead? front lead).map fun left => left ++ stop :: rest := by
  induction lead generalizing front with
  | nil => cases front <;> rfl
  | cons l lead ih =>
      obtain ⟨hne, hlead⟩ := List.ne_and_not_mem_of_not_mem_cons hstop
      cases front with
      | nil => exact if_neg (Ne.symm hne)
      | cons c others =>
          simp only [List.cons_append, dropLead?, ih hlead]
          split <;> rfl

end Text

namespace Header

variable {short front body : Text} {stop : Char} {mark : Option Char}

/-- Whether the character can stand between the keyword of a type and its body. -/
def isHeadChar (c : Char) : Bool :=
  c != ';' && c != '{'

theorem eq_or_eq_of_stop (hstop : isHeadChar stop = false) : stop = ';' ∨ stop = '{' := by
  simpa [isHeadChar, Decidable.imp_iff_not_or] using hstop

theorem isWordChar_eq_false_of_stop (hstop : isHeadChar stop = false) :
    isWordChar stop = false := by
  rcases eq_or_eq_of_stop hstop with rfl | rfl <;> decide

theorem isBlank_eq_false_of_stop (hstop : isHeadChar stop = false) : isBlank stop = false := by
  rcases eq_or_eq_of_stop hstop with rfl | rfl <;> decide

theorem isHeadChar_of_isWordChar {c : Char} (h : isWordChar c = true) : isHeadChar c = true := by
  cases hhead : isHeadChar c with
  | true => rfl
  | false =>
      rw [isWordChar_eq_false_of_stop hhead] at h
      cases h

theorem isHeadChar_of_isBlank {c : Char} (h : isBlank c = true) : isHeadChar c = true := by
  cases hhead : isHeadChar c with
  | true => rfl
  | false =>
      rw [isBlank_eq_false_of_stop hhead] at h
      cases h

/-- The search for the name of a type behind a keyword, where as many of the blanks that the text
starts with are taken as possible. -/
def bodyBehindBlanks? (short text : Text) : Option Text :=
  (List.range (text.takeWhile isBlank).length).findSome? fun kept =>
    let taken := (text.takeWhile isBlank).length - kept
    bodyAfterName? short (text.takeWhile isBlank)[taken - 1]? (text.drop taken)

theorem bodyAfterKeyword?_eq (short text : Text) :
    bodyAfterKeyword? short text =
      if text.takeWhile isBlank = [] then none
      else
        (if ((text.dropWhile isBlank).takeWhile isWordChar).isEmpty then none
          else bodyAfterKeyword? short ((text.dropWhile isBlank).dropWhile isWordChar)).or
            (bodyBehindBlanks? short text) := by
  rw [bodyAfterKeyword?]
  split
  next => rfl
  next =>
    dsimp only
    split
    next hpast => rw [hpast, Option.some_or]
    next hpast =>
      rw [hpast, Option.none_or]
      rfl

section Stop

variable (hshort : ∀ c ∈ short, isWordChar c = true) (hstop : isHeadChar stop = false)

include hshort hstop

/-- Whether the name of a type is found in front of a stop does not depend on what follows. -/
theorem bodyAfterName?_append (hfront : ∀ c ∈ front, isHeadChar c = true) (rest : Text) :
    bodyAfterName? short mark (front ++ stop :: rest) =
      (bodyAfterName? short mark (front ++ [stop])).map fun _ => rest := by
  have hlead : stop ∉ short := by
    intro hmem
    have hword := hshort stop hmem
    rw [isWordChar_eq_false_of_stop hstop] at hword
    cases hword
  unfold bodyAfterName?
  rw [Text.dropLead?_append_stop hlead, Text.dropLead?_append_stop hlead]
  cases hdrop : front.dropLead? short with
  | none => rfl
  | some left =>
      have hleft : ∀ c ∈ left, isHeadChar c = true := by
        intro c hmem
        apply hfront
        rw [← Text.dropLead?_eq_some_iff.mp hdrop]
        exact List.mem_append_right _ hmem
      have hhead : (left ++ stop :: rest).head? = (left ++ [stop]).head? := by
        cases left <;> rfl
      have hpast : ∀ behind : Text,
          (left ++ stop :: behind).dropWhile (fun c => c != ';' && c != '{') = stop :: behind :=
        fun behind => Text.dropWhile_run hleft hstop
      simp only [Option.map_some, Text.atBoundary, hhead, hpast]
      split
      · by_cases hopen : stop = '{'
        · subst hopen
          rfl
        · simp [hopen]
      · rfl

/-- The same for a search that has the blanks in front of the name still to go. -/
theorem bodyBehindBlanks?_append (hfront : ∀ c ∈ front, isHeadChar c = true) (rest : Text) :
    bodyBehindBlanks? short (front ++ stop :: rest) =
      (bodyBehindBlanks? short (front ++ [stop])).map fun _ => rest := by
  have hblank := isBlank_eq_false_of_stop hstop
  unfold bodyBehindBlanks?
  rw [Text.takeWhile_append_stop hblank, Text.takeWhile_append_stop hblank, List.map_findSome?]
  congr 1
  funext kept
  have htaken : (front.takeWhile isBlank).length - kept ≤ front.length :=
    (Nat.sub_le _ _).trans (List.takeWhile_prefix _).length_le
  simp only [Function.comp_apply, List.drop_append_of_le_length htaken]
  exact bodyAfterName?_append hshort hstop (fun c hmem => hfront c (List.mem_of_mem_drop hmem)) rest

/-- Whether the name of a type is found in front of a stop, behind any number of words, does not
depend on what follows. -/
theorem bodyAfterKeyword?_append (hfront : ∀ c ∈ front, isHeadChar c = true) (rest : Text) :
    bodyAfterKeyword? short (front ++ stop :: rest) =
      (bodyAfterKeyword? short (front ++ [stop])).map fun _ => rest := by
  -- A word is gone past as a whole, so the induction is on the length of the text.
  induction hlength : front.length using Nat.strongRecOn generalizing front with
  | ind length ih =>
      have hblank := isBlank_eq_false_of_stop hstop
      have hword := isWordChar_eq_false_of_stop hstop
      rw [bodyAfterKeyword?_eq short (front ++ stop :: rest),
        bodyAfterKeyword?_eq short (front ++ [stop]),
        bodyBehindBlanks?_append hshort hstop hfront rest]
      simp only [Text.takeWhile_append_stop hblank, Text.dropWhile_append_stop hblank,
        Text.takeWhile_append_stop hword, Text.dropWhile_append_stop hword]
      split
      next => rfl
      next hblanks =>
        have hsuffix : (front.dropWhile isBlank).dropWhile isWordChar <:+ front :=
          (List.dropWhile_suffix _).trans (List.dropWhile_suffix _)
        have hshorter : ((front.dropWhile isBlank).dropWhile isWordChar).length < length := by
          have hpositive := List.length_pos_iff.mpr hblanks
          have hsplit := congrArg List.length
            (List.takeWhile_append_dropWhile (p := isBlank) (l := front))
          have hle := (List.dropWhile_suffix (l := front.dropWhile isBlank) isWordChar).length_le
          rw [List.length_append] at hsplit
          omega
        have hpast := ih _ hshorter (fun c hmem => hfront c (hsuffix.subset hmem)) rfl
        rw [hpast]
        split
        next => rw [Option.none_or, Option.none_or]
        next => rw [Option.map_or]

/-- A search that finds nothing in a text finds nothing that begins there and goes past a stop. -/
theorem bodyAfterKeyword?_eq_none (hfront : ∀ c ∈ front, isHeadChar c = true) {rest : Text}
    (hnone : bodyAfterKeyword? short (front ++ stop :: rest) = none) (other : Text) :
    bodyAfterKeyword? short (front ++ stop :: other) = none := by
  rw [bodyAfterKeyword?_append hshort hstop hfront, Option.map_eq_none_iff] at hnone ⊢
  exact hnone

end Stop

/-- The keywords of the types that can have members. -/
def keywords : List Text :=
  ["class", "struct"]

/-- What follows the brace of the type `short`, if the text begins with a keyword of its head. -/
def bodyHere? (short : Text) (mark : Option Char) (text : Text) : Option Text :=
  keywords.findSome? fun keyword =>
    (Text.afterWord? keyword mark text).bind (bodyAfterKeyword? short)

theorem typeBodyFrom?_cons (short : Text) (mark : Option Char) (c : Char) (rest : Text) :
    typeBodyFrom? short mark (c :: rest) =
      (bodyHere? short mark (c :: rest)).or (typeBodyFrom? short (some c) rest) := by
  rw [typeBodyFrom?]
  split
  next hhere => exact (congrArg (Option.or · _) hhere).symm
  next hhere => exact (congrArg (Option.or · _) hhere).symm

theorem isWordChar_of_mem_keyword {keyword : Text} (h : keyword ∈ keywords) :
    ∀ c ∈ keyword, isWordChar c = true := by
  have hall : keywords.all (fun keyword => keyword.all isWordChar) = true := by decide
  exact List.all_eq_true.mp (List.all_eq_true.mp hall keyword h)

theorem afterWord?_of_mem_keywords {keyword : Text} (h : keyword ∈ keywords)
    (hmark : Text.inWord mark = false) (rest : Text) :
    Text.afterWord? keyword mark (keyword ++ rest) = some rest := by
  have hhead : Text.inWord (keyword ++ rest).head? = true := by
    rcases List.mem_cons.mp h with rfl | hother
    · rfl
    · rw [List.mem_singleton.mp hother]
      rfl
  rw [Text.afterWord?, Text.atBoundary, hmark, hhead]
  exact Text.dropLead?_eq_some_iff.mpr rfl

/-- How a type is written up to the brace that opens its body. -/
structure TypeHead (short : Text) where
  keyword : Text
  blanks : Text
  /-- What stands between the name and the brace: a `final`, the base types. -/
  bases : Text
  isKeyword : keyword ∈ keywords
  blanks_ne_nil : blanks ≠ []
  isBlank_of_mem : ∀ c ∈ blanks, isBlank c = true
  name_ne_nil : short ≠ []
  isWordChar_of_mem : ∀ c ∈ short, isWordChar c = true
  isHeadChar_of_mem : ∀ c ∈ bases, isHeadChar c = true
  /-- The name ends in front of the bases. -/
  endsName : Text.inWord bases.head? = false

namespace TypeHead

variable (head : TypeHead short)

/-- The text between the keyword and the brace. -/
def behindKeyword : Text :=
  head.blanks ++ (short ++ head.bases)

/-- The text up to the brace. -/
def text : Text :=
  head.keyword ++ head.behindKeyword

theorem isHeadChar_of_mem_text {c : Char} (hmem : c ∈ head.text) : isHeadChar c = true := by
  rcases List.mem_append.mp hmem with hkeyword | hmem
  · exact isHeadChar_of_isWordChar (isWordChar_of_mem_keyword head.isKeyword c hkeyword)
  · rcases List.mem_append.mp hmem with hblank | hmem
    · exact isHeadChar_of_isBlank (head.isBlank_of_mem c hblank)
    · rcases List.mem_append.mp hmem with hname | hbase
      · exact isHeadChar_of_isWordChar (head.isWordChar_of_mem c hname)
      · exact head.isHeadChar_of_mem c hbase

theorem inWord_head?_bases (body : Text) :
    Text.inWord (head.bases ++ '{' :: body).head? = false := by
  have hends := head.endsName
  cases hbases : head.bases with
  | nil => rfl
  | cons c others =>
      rw [hbases] at hends
      exact hends

theorem bodyAfterName?_of_head {mark : Option Char} (body : Text) :
    bodyAfterName? short mark (short ++ (head.bases ++ '{' :: body)) = some body := by
  have hlast : Text.inWord (short.getLast?.or mark) = true := by
    obtain ⟨c, hc⟩ := Option.isSome_iff_exists.mp (List.getLast?_isSome.mpr head.name_ne_nil)
    rw [hc]
    exact head.isWordChar_of_mem c (List.mem_of_getLast? hc)
  have hpast : (head.bases ++ '{' :: body).dropWhile (fun c => c != ';' && c != '{') =
      '{' :: body := Text.dropWhile_run head.isHeadChar_of_mem rfl
  rw [bodyAfterName?, Text.dropLead?_eq_some_iff.mpr rfl]
  simp only [Text.atBoundary, hlast, head.inWord_head?_bases, hpast]
  rfl

theorem bodyBehindBlanks?_of_head (hblanks : (head.behindKeyword ++ '{' :: body).takeWhile isBlank =
    head.blanks) : bodyBehindBlanks? short (head.behindKeyword ++ '{' :: body) = some body := by
  have htext : head.behindKeyword ++ '{' :: body =
      head.blanks ++ (short ++ (head.bases ++ '{' :: body)) := by
    simp [behindKeyword]
  obtain ⟨count, hcount⟩ := Nat.exists_eq_succ_of_ne_zero
    (List.length_pos_iff.mpr head.blanks_ne_nil).ne'
  -- All the blanks are taken at first, and the name follows.
  rw [bodyBehindBlanks?, hblanks, hcount, List.range_succ_eq_map, List.findSome?_cons, ← hcount]
  simp only [Nat.sub_zero, htext, List.drop_left, head.bodyAfterName?_of_head]

/-- Behind its keyword the body of the type is found. -/
theorem bodyAfterKeyword?_of_head (body : Text) :
    bodyAfterKeyword? short (head.behindKeyword ++ '{' :: body) = some body := by
  have htext : head.behindKeyword ++ '{' :: body =
      head.blanks ++ (short ++ (head.bases ++ '{' :: body)) := by
    simp [behindKeyword]
  have hname : (short ++ (head.bases ++ '{' :: body)).head?.any isBlank = false := by
    obtain ⟨c, hc⟩ := Option.isSome_iff_exists.mp (List.isSome_head?.mpr head.name_ne_nil)
    have hword := head.isWordChar_of_mem c (List.mem_of_head? hc)
    rw [List.head?_append_of_ne_nil _ head.name_ne_nil, hc, Option.any_some, Bool.eq_false_iff]
    intro hblank
    rw [isWordChar_of_isBlank hblank] at hword
    cases hword
  have hends : (head.bases ++ '{' :: body).head?.any isWordChar = false := by
    have hnone := head.inWord_head?_bases body
    cases hhead : (head.bases ++ '{' :: body).head? with
    | none => rfl
    | some c =>
        rw [hhead] at hnone
        exact hnone
  have hblanks : (head.behindKeyword ++ '{' :: body).takeWhile isBlank = head.blanks :=
    htext ▸ Text.takeWhile_run head.isBlank_of_mem hname
  rw [bodyAfterKeyword?_eq, hblanks, if_neg head.blanks_ne_nil,
    head.bodyBehindBlanks?_of_head hblanks, htext, Text.dropWhile_run head.isBlank_of_mem hname,
    Text.takeWhile_run head.isWordChar_of_mem hends,
    Text.dropWhile_run head.isWordChar_of_mem hends,
    bodyAfterKeyword?_append head.isWordChar_of_mem rfl head.isHeadChar_of_mem]
  -- A search that takes the name for a word and goes on comes to the same brace.
  split
  next => rfl
  next => cases bodyAfterKeyword? short (head.bases ++ ['{']) <;> rfl

theorem bodyHere?_of_head (hmark : Text.inWord mark = false) (body : Text) :
    bodyHere? short mark (head.text ++ '{' :: body) = some body := by
  have htext : head.text ++ '{' :: body = head.keyword ++ (head.behindKeyword ++ '{' :: body) := by
    simp [text]
  have hhere : (Text.afterWord? head.keyword mark (head.text ++ '{' :: body)).bind
      (bodyAfterKeyword? short) = some body := by
    rw [htext, afterWord?_of_mem_keywords head.isKeyword hmark, Option.bind_some,
      head.bodyAfterKeyword?_of_head]
  rcases List.mem_cons.mp head.isKeyword with heq | hother
  · rw [heq] at hhere
    rw [bodyHere?, keywords, List.findSome?_cons, hhere]
  · have heq := List.mem_singleton.mp hother
    have hclass : Text.afterWord? "class" mark (head.text ++ '{' :: body) = none := by
      rw [htext, heq, Text.afterWord?]
      split <;> rfl
    rw [heq] at hhere
    rw [bodyHere?, keywords, List.findSome?_cons, hclass, Option.bind_none, List.findSome?_cons,
      hhere]

/-- What stands between an earlier keyword and the type leads to no other body, if there is none in
front of the type. -/
theorem bodyAfterKeyword?_append_text (hnone : bodyAfterKeyword? short front = none)
    (body : Text) : bodyAfterKeyword? short (front ++ (head.text ++ '{' :: body)) = none ∨
      bodyAfterKeyword? short (front ++ (head.text ++ '{' :: body)) = some body := by
  cases hpast : front.dropWhile isHeadChar with
  | nil =>
      have hall : ∀ c ∈ front ++ head.text, isHeadChar c = true := fun c hmem =>
        (List.mem_append.mp hmem).elim (List.dropWhile_eq_nil_iff.mp hpast c)
          head.isHeadChar_of_mem_text
      rw [← List.append_assoc, bodyAfterKeyword?_append head.isWordChar_of_mem rfl hall]
      cases bodyAfterKeyword? short (front ++ head.text ++ ['{'])
      · exact .inl rfl
      · exact .inr rfl
  | cons stop later =>
      -- The text behind the keyword comes to a stop before the type begins.
      have hstop : isHeadChar stop = false := by
        simpa [hpast] using Text.any_head?_dropWhile isHeadChar front
      have hsplit : front = front.takeWhile isHeadChar ++ stop :: later := by
        rw [← hpast, List.takeWhile_append_dropWhile]
      rw [hsplit] at hnone
      rw [hsplit, List.append_assoc, List.cons_append]
      exact .inl (bodyAfterKeyword?_eq_none head.isWordChar_of_mem hstop
        (fun _ => List.mem_takeWhile_imp) hnone _)

/-- A keyword in front of a type opens no other body, if it opens none by itself. -/
theorem bodyHere?_append (hne : front ≠ []) (hlast : Text.inWord front.getLast? = false)
    (hnone : bodyHere? short mark front = none) (body : Text) :
    bodyHere? short mark (front ++ (head.text ++ '{' :: body)) = none ∨
      bodyHere? short mark (front ++ (head.text ++ '{' :: body)) = some body := by
  cases hfound : bodyHere? short mark (front ++ (head.text ++ '{' :: body)) with
  | none => exact .inl rfl
  | some found =>
      obtain ⟨keyword, hkeyword, hsome⟩ := List.exists_of_findSome?_eq_some hfound
      obtain ⟨left, hafter, hleft⟩ := Option.bind_eq_some_iff.mp hsome
      obtain ⟨hboundary, hdrop⟩ := Option.ite_none_right_eq_some.mp hafter
      rcases List.append_eq_append_iff.mp (Text.dropLead?_eq_some_iff.mp hdrop) with
        ⟨inner, rfl, rfl⟩ | ⟨inner, rfl, -⟩
      · have hhead : Text.atBoundary mark (keyword ++ inner) = true := by
          rw [Text.atBoundary, List.head?_append_of_ne_nil _ hne] at hboundary
          exact hboundary
        have hinner : bodyAfterKeyword? short inner = none := by
          have hhere := List.findSome?_eq_none_iff.mp hnone keyword hkeyword
          rw [Text.afterWord?, if_pos hhead, Text.dropLead?_eq_some_iff.mpr rfl] at hhere
          exact hhere
        rcases head.bodyAfterKeyword?_append_text hinner body with hlost | hbody
        · rw [hlost] at hleft
          cases hleft
        · exact .inr (hleft.symm.trans hbody)
      · -- A keyword would go on into the keyword of the type, but a word ends between the two.
        obtain ⟨c, hc⟩ := Option.isSome_iff_exists.mp (List.getLast?_isSome.mpr hne)
        have hword := isWordChar_of_mem_keyword hkeyword c
          (List.mem_append_left _ (List.mem_of_getLast? hc))
        rw [hc] at hlast
        exact absurd hword (Bool.eq_false_iff.mp hlast)

/-- The body of the first type of a name opens where the head of the type says. -/
theorem typeBodyFrom?_of_head (hnone : typeBodyFrom? short mark front = none)
    (hlast : Text.inWord (front.getLast?.or mark) = false) (body : Text) :
    typeBodyFrom? short mark (front ++ (head.text ++ '{' :: body)) = some body := by
  induction front generalizing mark with
  | nil =>
      have hne : head.text ++ '{' :: body ≠ [] := by simp
      obtain ⟨c, rest, htext⟩ := List.exists_cons_of_ne_nil hne
      rw [List.nil_append, htext, typeBodyFrom?_cons, ← htext,
        head.bodyHere?_of_head (by simpa using hlast), Option.some_or]
  | cons c others ih =>
      rw [typeBodyFrom?_cons, Option.or_eq_none_iff] at hnone
      obtain ⟨hhere, hothers⟩ := hnone
      have hfinal : Text.inWord (c :: others).getLast? = false := by
        rw [List.getLast?_cons, Option.some_or] at hlast
        rw [List.getLast?_cons]
        exact hlast
      rw [Text.getLast?_cons_or] at hlast
      rw [List.cons_append, typeBodyFrom?_cons, ih hothers hlast, ← List.cons_append]
      rcases head.bodyHere?_append (List.cons_ne_nil _ _) hfinal hhere body with hfound | hfound
      · rw [hfound, Option.none_or]
      · rw [hfound, Option.some_or]

end TypeHead

end Header

end MemberSplit
