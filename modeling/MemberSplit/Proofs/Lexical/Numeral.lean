import MemberSplit.Proofs.Lexical.Token
import MemberSplit.Proofs.Text.Brackets
import MemberSplit.Proofs.Text.Cut

/-!
# Digit separators

The digits of an integer literal can stand in groups with a single quote between them. Lexical
scanning takes a quote for such a separator if a decimal digit is in front of it and a hexadecimal
one behind it. So a quote behind a hexadecimal digit that is a letter opens a character literal,
which ends with the next quote or with the line.
-/

namespace MemberSplit.Lexical

/-- The base that an integer literal is written in. -/
inductive Radix where
  | binary
  | octal
  | decimal
  | hexadecimal
  deriving DecidableEq, Repr

namespace Radix

def isDigit : Radix → Char → Bool
  | binary, c => c == '0' || c == '1'
  | octal, c => '0' ≤ c && c ≤ '7'
  | decimal, c => c.isDigit
  | hexadecimal, c => Context.isHexDigit c

/-- What an integer literal can have in front of its digits. An octal one has a digit there. -/
def marks : Radix → List Text
  | binary => ["0b", "0B"]
  | octal => [""]
  | decimal => [""]
  | hexadecimal => ["0x", "0X"]

theorem isDigit_decimal_of_isDigit {radix : Radix} (hradix : radix ≠ .hexadecimal) {c : Char}
    (h : radix.isDigit c = true) : c.isDigit = true := by
  cases radix with
  | binary =>
      simp only [isDigit, Bool.or_eq_true, beq_iff_eq] at h
      rcases h with rfl | rfl <;> rfl
  | octal =>
      simp only [isDigit, Bool.and_eq_true, decide_eq_true_eq, Char.le_def] at h
      simp only [Char.isDigit, Bool.and_eq_true, decide_eq_true_eq]
      exact ⟨h.1, Nat.le_trans h.2 (by decide)⟩
  | decimal => exact h
  | hexadecimal => exact absurd rfl hradix

theorem isHexDigit_of_isDigit {radix : Radix} {c : Char} (h : radix.isDigit c = true) :
    Context.isHexDigit c = true := by
  by_cases hradix : radix = .hexadecimal
  · subst hradix
    exact h
  · simp only [Context.isHexDigit, isDigit_decimal_of_isDigit hradix h, Bool.true_or]

end Radix

/-- An integer literal without its suffix. -/
structure Numeral where
  radix : Radix
  mark : Text
  /-- The digits between the separators. -/
  groups : List Text
  mark_mem : mark ∈ radix.marks
  groups_ne_nil : groups ≠ []
  isWritten : ∀ group ∈ groups, group ≠ [] ∧ group.all radix.isDigit = true

namespace Numeral

/-- The literal as it is written. -/
def text (numeral : Numeral) : Text :=
  numeral.mark ++ Text.joinWith ['\''] numeral.groups

/-- Whether the last of some digits is a decimal one. -/
def endsInDecimal (group : Text) : Bool :=
  group.getLast?.any Char.isDigit

/-- Whether a character literal is open behind some groups of digits: behind a group that ends in a
letter the separator opens one, and the separator behind the next group closes it. -/
def leavesOpenFrom : List Text → Bool
  | group :: next :: rest =>
    if endsInDecimal group then leavesOpenFrom (next :: rest)
    else if rest.isEmpty then true
    else leavesOpenFrom rest
  | _ => false

/-- Whether scanning takes a separator of the literal for a quote that is not closed inside. -/
def leavesOpen (numeral : Numeral) : Bool :=
  leavesOpenFrom numeral.groups

theorem leavesOpenFrom_eq_false {groups : List Text}
    (h : ∀ group ∈ groups.dropLast, endsInDecimal group = true) :
    leavesOpenFrom groups = false := by
  induction groups with
  | nil => rfl
  | cons group rest ih =>
      cases rest with
      | nil => rfl
      | cons next others =>
          obtain ⟨hgroup, hrest⟩ := List.forall_mem_cons.mp h
          rw [leavesOpenFrom, if_pos hgroup]
          exact ih hrest

/-- Only the digits of hexadecimal literals can be letters. -/
theorem leavesOpen_eq_false_of_radix {numeral : Numeral} (h : numeral.radix ≠ .hexadecimal) :
    numeral.leavesOpen = false := by
  apply leavesOpenFrom_eq_false
  intro group hmem
  obtain ⟨hne, hdigits⟩ := numeral.isWritten group ((List.dropLast_sublist _).mem hmem)
  rw [endsInDecimal, List.getLast?_eq_some_getLast hne]
  have hlast := List.all_eq_true.mp hdigits _ (List.getLast_mem hne)
  exact Radix.isDigit_decimal_of_isDigit h hlast

end Numeral

section Passing

variable {run rest : Text}

/-- Whether a character keeps scanning in the code wherever it stands. -/
def isPlain (c : Char) : Bool :=
  c != '\'' && c != '"' && c != '/'

theorem next_of_isPlain {c : Char} (h : isPlain c = true) (afterDigit : Bool)
    (following : Option Char) :
    Context.next (.code afterDigit) c following = .code c.isDigit := by
  obtain ⟨⟨hsingle, hdouble⟩, hslash⟩ : (c ≠ '\'' ∧ c ≠ '"') ∧ c ≠ '/' := by
    simpa [isPlain] using h
  rw [Context.next, if_neg hslash, if_neg hdouble, if_neg hsingle]

/-- Whether a character is plain and no brace. -/
def isBland (c : Char) : Bool :=
  isPlain c && c != '{' && c != '}'

theorem ofChar?_of_isBland {c : Char} (h : isBland c = true) (context : Context) :
    Brace.ofChar? context c = none := by
  obtain ⟨⟨-, hopening⟩, hclosing⟩ : (isPlain c = true ∧ c ≠ '{') ∧ c ≠ '}' := by
    simpa [isBland] using h
  rw [Brace.ofChar?, if_neg hopening, if_neg hclosing]
  exact ite_self _

/-- A run of bland characters leads from code to code, and its last one tells whether that is behind
a digit. -/
theorem passes_bland (hbland : ∀ c ∈ run, isBland c = true) (hne : run ≠ []) (afterDigit : Bool)
    (rest : Text) :
    Brace.Passes .lexical rest (.code afterDigit) run
      (.code (run.getLast?.any Char.isDigit)) := by
  induction run generalizing afterDigit with
  | nil => exact absurd rfl hne
  | cons c others ih =>
      obtain ⟨hc, hothers⟩ := List.forall_mem_cons.mp hbland
      have hplain : isPlain c = true := by
        simp only [isBland, Bool.and_eq_true] at hc
        exact hc.1.1
      refine ⟨ofChar?_of_isBland hc _, ?_⟩
      rw [Brace.nextContext, next_of_isPlain hplain]
      cases others with
      | nil => rfl
      | cons d more => exact ih hothers (by simp) c.isDigit

theorem notMem_of_isHexDigit {c : Char} (h : Context.isHexDigit c = true) :
    c ∉ ['\'', '"', '/', '{', '}', '\\', '\n'] := by
  intro hmem
  have hnone : ['\'', '"', '/', '{', '}', '\\', '\n'].all (!Context.isHexDigit ·) = true := by
    decide
  simpa [h] using List.all_eq_true.mp hnone c hmem

theorem isBland_of_isHexDigit {c : Char} (h : Context.isHexDigit c = true) : isBland c = true := by
  have hnot := notMem_of_isHexDigit h
  simp only [List.mem_cons, not_or] at hnot
  simp [isBland, isPlain, hnot]

/-- Digits do not end a character literal. -/
theorem passes_quoted (hdigits : ∀ c ∈ run, Context.isHexDigit c = true) (rest : Text) :
    Brace.Passes .lexical rest (.quoted '\'' false) run (.quoted '\'' false) := by
  refine Brace.passes_of_forall (fun _ _ => rfl) (fun c hmem following => ?_) rest
  have hnot := notMem_of_isHexDigit (hdigits c hmem)
  simp only [List.mem_cons, not_or] at hnot
  simp [Brace.nextContext, Context.next, hnot]

end Passing

namespace Numeral

variable {group rest : Text} {groups : List Text}

/-- Groups of hexadecimal digits, none of them empty. -/
def AreDigits (groups : List Text) : Prop :=
  ∀ group ∈ groups, group ≠ [] ∧ ∀ c ∈ group, Context.isHexDigit c = true

theorem AreDigits.head?_joinWith (hgroups : AreDigits groups) (hne : groups ≠ []) (rest : Text) :
    (Text.joinWith ['\''] groups ++ rest).head?.any Context.isHexDigit = true := by
  cases groups with
  | nil => exact absurd rfl hne
  | cons group others =>
      obtain ⟨back, hback, -⟩ := Text.exists_joinWith_cons ['\''] group others
      obtain ⟨hfull, hdigits⟩ := hgroups group List.mem_cons_self
      cases group with
      | nil => exact absurd rfl hfull
      | cons c more =>
          rw [hback]
          exact hdigits c List.mem_cons_self

/-- The quote between two groups of digits is a separator, or it opens a character literal. -/
theorem AreDigits.passes_group (hgroups : AreDigits (group :: groups)) (hne : groups ≠ [])
    (afterDigit : Bool) (rest : Text) :
    Brace.Passes .lexical (Text.joinWith ['\''] groups ++ rest) (.code afterDigit)
      (group ++ ['\'']) (if endsInDecimal group then .code false else .quoted '\'' false) := by
  obtain ⟨⟨hfull, hdigits⟩, hrest⟩ := List.forall_mem_cons.mp hgroups
  have hhead := AreDigits.head?_joinWith hrest hne rest
  generalize Text.joinWith ['\''] groups ++ rest = behind at hhead ⊢
  have hbland := fun c hmem => isBland_of_isHexDigit (hdigits c hmem)
  refine (passes_bland hbland hfull afterDigit _).append ⟨rfl, ?_⟩
  change Context.next (.code (endsInDecimal group)) '\'' behind.head? = _
  cases endsInDecimal group <;> simp [Context.next, hhead]

/-- The quote behind a group of digits ends the character literal that is open. -/
theorem passes_group_quoted (hdigits : ∀ c ∈ group, Context.isHexDigit c = true) (rest : Text) :
    Brace.Passes .lexical rest (.quoted '\'' false) (group ++ ['\'']) (.code false) :=
  (passes_quoted hdigits _).append ⟨rfl, rfl⟩

/-- Where scanning is behind some groups of digits. -/
theorem AreDigits.exists_passes (hgroups : AreDigits groups) (hne : groups ≠ [])
    (afterDigit : Bool) (rest : Text) :
    ∃ final, Brace.Passes .lexical rest (.code afterDigit) (Text.joinWith ['\''] groups) final ∧
      if leavesOpenFrom groups then final = .quoted '\'' false
      else ∃ digit, final = .code digit := by
  fun_induction leavesOpenFrom groups generalizing afterDigit with
  | case1 group next others hdecimal ih =>
      obtain ⟨hgroup, hrest⟩ := List.forall_mem_cons.mp hgroups
      obtain ⟨final, hpasses, hfinal⟩ := ih hrest (by simp) false
      refine ⟨final, ?_, hfinal⟩
      have hfirst := hgroups.passes_group (by simp) afterDigit rest
      rw [if_pos hdecimal] at hfirst
      rw [Text.joinWith_cons_cons]
      exact hfirst.append hpasses
  | case2 group next others hletter hlast =>
      obtain ⟨hgroup, hrest⟩ := List.forall_mem_cons.mp hgroups
      obtain rfl : others = [] := by simpa using hlast
      refine ⟨_, ?_, rfl⟩
      have hfirst := hgroups.passes_group (by simp) afterDigit rest
      rw [if_neg hletter] at hfirst
      rw [Text.joinWith_cons_cons]
      refine hfirst.append ?_
      have hnext := hrest next List.mem_cons_self
      simpa [Text.joinWith] using passes_quoted hnext.2 rest
  | case3 group next others hletter hmore ih =>
      obtain ⟨hgroup, hrest⟩ := List.forall_mem_cons.mp hgroups
      obtain ⟨hnext, hothers⟩ := List.forall_mem_cons.mp hrest
      obtain ⟨third, more, rfl⟩ : ∃ third more, others = third :: more :=
        List.exists_cons_of_ne_nil (by simpa using hmore)
      obtain ⟨final, hpasses, hfinal⟩ := ih hothers (by simp) false
      refine ⟨final, ?_, hfinal⟩
      have hfirst := hgroups.passes_group (by simp) afterDigit rest
      rw [if_neg hletter] at hfirst
      have hsecond := passes_group_quoted hnext.2 (Text.joinWith ['\''] (third :: more) ++ rest)
      rw [Text.joinWith_cons_cons]
      refine hfirst.append ?_
      rw [Text.joinWith_cons_cons]
      exact hsecond.append hpasses
  | case4 groups hshort =>
      cases groups with
      | nil => exact absurd rfl hne
      | cons group others =>
          cases others with
          | cons next more => exact absurd rfl (hshort group next more)
          | nil =>
              obtain ⟨hfull, hdigits⟩ := hgroups group List.mem_cons_self
              have hbland := fun c hmem => isBland_of_isHexDigit (hdigits c hmem)
              have hpasses := passes_bland hbland hfull afterDigit rest
              exact ⟨_, by simpa [Text.joinWith] using hpasses, _, rfl⟩

variable (numeral : Numeral)

theorem areDigits_groups : AreDigits numeral.groups := by
  intro group hmem
  obtain ⟨hne, hdigits⟩ := numeral.isWritten group hmem
  exact ⟨hne, fun c hc => Radix.isHexDigit_of_isDigit (List.all_eq_true.mp hdigits c hc)⟩

theorem isBland_of_mem_mark : ∀ c ∈ numeral.mark, isBland c = true := by
  have hmark := numeral.mark_mem
  have hmarks : ∀ mark ∈ numeral.radix.marks, mark.all isBland = true := by
    cases numeral.radix <;> decide
  exact List.all_eq_true.mp (hmarks _ hmark)

/-- Scanning is in the code behind an integer literal, unless the literal leaves a quote open. -/
theorem exists_passes (afterDigit : Bool) (rest : Text) :
    ∃ final, Brace.Passes .lexical rest (.code afterDigit) numeral.text final ∧
      if numeral.leavesOpen then final = .quoted '\'' false else ∃ digit, final = .code digit := by
  cases hmark : numeral.mark with
  | nil =>
      rw [text, hmark]
      exact numeral.areDigits_groups.exists_passes numeral.groups_ne_nil _ rest
  | cons c more =>
      have hfirst := fun rest =>
        passes_bland numeral.isBland_of_mem_mark (by simp [hmark]) afterDigit rest
      obtain ⟨final, hpasses, hfinal⟩ := numeral.areDigits_groups.exists_passes
        numeral.groups_ne_nil (numeral.mark.getLast?.any Char.isDigit) rest
      exact ⟨final, (hfirst _).append hpasses, hfinal⟩

theorem ofChar?_of_mem_text : ∀ c ∈ numeral.text, Brace.ofChar? .start c = none := by
  have hmark := fun c hmem => ofChar?_of_isBland (numeral.isBland_of_mem_mark c hmem) .start
  refine List.forall_mem_append.mpr ⟨hmark, Text.forall_mem_joinWith ?_ ?_⟩
  · exact List.forall_mem_singleton.mpr rfl
  · intro group hmem c hc
    have hdigit := (numeral.areDigits_groups group hmem).2 c hc
    exact ofChar?_of_isBland (isBland_of_isHexDigit hdigit) _

theorem passes_literal_mode (rest : Text) :
    Brace.Passes .literal rest .start numeral.text .start :=
  Brace.passes_of_forall numeral.ofChar?_of_mem_text (fun _ _ _ => rfl) rest

/-- A text in which some integer literals stand, each with what follows it up to the next one. -/
def spell (front : Text) : List (Numeral × Text) → Text
  | [] => front
  | (numeral, filler) :: rest => front ++ numeral.text ++ spell filler rest

/-- There are quotes and slashes in none of the texts around the integer literals. -/
def ArePlain (front : Text) (pieces : List (Numeral × Text)) : Prop :=
  front.all isPlain = true ∧ ∀ piece ∈ pieces, piece.2.all isPlain = true

variable {front before : Text} {pieces : List (Numeral × Text)}

theorem spell_append (before front : Text) (pieces : List (Numeral × Text)) :
    spell (before ++ front) pieces = before ++ spell front pieces := by
  cases pieces <;> simp [spell]

theorem arePlain_cons {piece : Numeral × Text} : ArePlain front (piece :: pieces) ↔
    (∀ c ∈ front, isPlain c = true) ∧ ArePlain piece.2 pieces := by
  simp only [ArePlain, List.forall_mem_cons, List.all_eq_true]

end Numeral

/-- Plain text is the same to both ways of scanning. -/
theorem ScansLike.plain {run rest other : Text} (hplain : ∀ c ∈ run, isPlain c = true)
    (hrest : ∀ afterDigit, ScansLike (.code afterDigit) rest other) (afterDigit : Bool) :
    ScansLike (.code afterDigit) (run ++ rest) (run ++ other) := by
  induction run generalizing afterDigit with
  | nil => exact hrest afterDigit
  | cons c others ih =>
      obtain ⟨hc, hothers⟩ := List.forall_mem_cons.mp hplain
      refine ScansLike.code ?_ rfl
      rw [next_of_isPlain hc]
      exact ih hothers _

namespace Numeral

variable {front before : Text} {pieces : List (Numeral × Text)}

/-- If no integer literal leaves a quote open, lexical scanning sees what literal scanning sees. -/
theorem scansLike_spell (hplain : ArePlain front pieces)
    (hclosed : ∀ piece ∈ pieces, piece.1.leavesOpen = false) (afterDigit : Bool) :
    ScansLike (.code afterDigit) (spell front pieces) (spell front pieces) := by
  induction pieces generalizing front afterDigit with
  | nil =>
      have hfront := List.all_eq_true.mp hplain.1
      simpa [spell] using ScansLike.plain hfront (fun _ => .nil _) afterDigit
  | cons piece rest ih =>
      obtain ⟨numeral, filler⟩ := piece
      obtain ⟨hfront, hpieces⟩ := arePlain_cons.mp hplain
      obtain ⟨hnumeral, hrest⟩ := List.forall_mem_cons.mp hclosed
      rw [spell, List.append_assoc]
      refine ScansLike.plain hfront (fun digit => ?_) afterDigit
      obtain ⟨final, hpasses, hfinal⟩ := numeral.exists_passes digit (spell filler rest)
      rw [hnumeral] at hfinal
      obtain ⟨digit', rfl⟩ := hfinal
      exact (ih hpieces hrest digit').pass hpasses (numeral.passes_literal_mode _) rfl

/-- Both ways of scanning find the same balance, and the same partner for each brace. -/
def ScansAlike (text : Text) : Prop :=
  Balance.ofText .lexical text = Balance.ofText .literal text ∧
    ∀ offset, Block.closingBrace? text offset .lexical = Block.closingBrace? text offset .literal

theorem brace_notMem_text (numeral : Numeral) : '{' ∉ numeral.text := by
  intro hmem
  exact absurd (numeral.ofChar?_of_mem_text '{' hmem) (by decide)

/-- What stands behind a brace is again text with integer literals. -/
theorem exists_spell_behind {rest : Text} (h : spell front pieces = before ++ '{' :: rest)
    (hplain : ArePlain front pieces) :
    ∃ front' pieces', rest = spell front' pieces' ∧ ArePlain front' pieces' ∧
      pieces' <:+ pieces := by
  induction pieces generalizing front before with
  | nil =>
      obtain rfl : front = before ++ '{' :: rest := h
      obtain ⟨-, hbehind⟩ := List.forall_mem_append.mp (List.all_eq_true.mp hplain.1)
      have hrest := List.all_eq_true.mpr (List.forall_mem_cons.mp hbehind).2
      exact ⟨rest, [], rfl, ⟨hrest, by simp⟩, List.suffix_rfl⟩
  | cons piece others ih =>
      obtain ⟨numeral, filler⟩ := piece
      obtain ⟨hfront, hpieces⟩ := arePlain_cons.mp hplain
      rw [spell, List.append_assoc] at h
      rcases Text.exists_of_append_eq_append_cons h with
        ⟨front', rfl, rfl⟩ | ⟨before', -, hbehind⟩
      · obtain ⟨-, hfront'⟩ := List.forall_mem_append.mp hfront
        refine ⟨front', (numeral, filler) :: others, by simp [spell], ?_, List.suffix_rfl⟩
        exact arePlain_cons.mpr ⟨(List.forall_mem_cons.mp hfront').2, hpieces⟩
      · rcases Text.exists_of_append_eq_append_cons hbehind with
          ⟨more, hnumeral, -⟩ | ⟨before'', -, hlater⟩
        · exact absurd (hnumeral ▸ List.mem_append_right _ List.mem_cons_self)
            numeral.brace_notMem_text
        · obtain ⟨front', pieces', hrest, hplain', hsuffix⟩ := ih hlater hpieces
          exact ⟨front', pieces', hrest, hplain', hsuffix.trans (List.suffix_cons _ _)⟩

theorem scansAlike_spell (hplain : ArePlain front pieces)
    (hclosed : ∀ piece ∈ pieces, piece.1.leavesOpen = false) : ScansAlike (spell front pieces) := by
  refine ⟨?_, fun offset => ?_⟩
  · rw [Balance.ofText, Brace.list, Balance.ofText, Brace.list]
    exact congrArg _ (scansLike_spell hplain hclosed false).braces
  · obtain ⟨before, hbefore⟩ := Text.exists_append_dropBytes (spell front pieces) offset
    unfold Block.closingBrace?
    split
    next rest hdrop =>
      rw [hdrop] at hbefore
      obtain ⟨front', pieces', rfl, hplain', hsuffix⟩ := exists_spell_behind hbefore hplain
      have hclosed' := fun piece hmem => hclosed piece (hsuffix.subset hmem)
      have hlength := (scansLike_spell hplain' hclosed' false).block 0
      have hmap := congrArg (Option.map (offset + ·)) hlength
      simp only [Block.lengthFrom?, Option.map_map] at hmap
      exact hmap
    next => rfl

/-- Integer literals with an opening brace and a newline behind each. -/
def withBraces (numerals : List Numeral) : List (Numeral × Text) :=
  numerals.map fun numeral => (numeral, ['{', '\n'])

theorem spell_withBraces_cons (numeral : Numeral) (rest : List Numeral) :
    spell [] (withBraces (numeral :: rest)) =
      numeral.text ++ '{' :: '\n' :: spell [] (withBraces rest) :=
  congrArg (numeral.text ++ ·) (spell_append ['{', '\n'] [] (withBraces rest))

theorem arePlain_withBraces (numerals : List Numeral) : ArePlain [] (withBraces numerals) := by
  refine ⟨rfl, ?_⟩
  rintro piece hmem
  obtain ⟨numeral, -, rfl⟩ := List.mem_map.mp hmem
  rfl

/-- Lexical scanning misses the braces behind those literals that leave a quote open. -/
theorem listFrom_spell_withBraces (numerals : List Numeral) (afterDigit : Bool) :
    Brace.listFrom .lexical (.code afterDigit) (spell [] (withBraces numerals)) =
      List.replicate (numerals.countP fun numeral => !numeral.leavesOpen) .opening := by
  induction numerals generalizing afterDigit with
  | nil => rfl
  | cons numeral rest ih =>
      rw [spell_withBraces_cons]
      obtain ⟨final, hpasses, hfinal⟩ :=
        numeral.exists_passes afterDigit ('{' :: '\n' :: spell [] (withBraces rest))
      rw [hpasses.listFrom_append]
      cases hopen : numeral.leavesOpen with
      | true =>
          rw [hopen] at hfinal
          obtain rfl := hfinal
          rw [List.countP_cons_of_neg (by simp [hopen])]
          exact ih false
      | false =>
          rw [hopen] at hfinal
          obtain ⟨digit, rfl⟩ := hfinal
          rw [List.countP_cons_of_pos (by simp [hopen]), List.replicate_succ]
          exact congrArg _ (ih false)

theorem listFrom_literal_spell_withBraces (numerals : List Numeral) :
    Brace.listFrom .literal .start (spell [] (withBraces numerals)) =
      List.replicate numerals.length .opening := by
  induction numerals with
  | nil => rfl
  | cons numeral rest ih =>
      rw [spell_withBraces_cons, (numeral.passes_literal_mode _).listFrom_append,
        List.length_cons, List.replicate_succ]
      exact congrArg _ ih

theorem net_foldl_push_opening (count : Nat) (balance : Balance) :
    ((List.replicate count Brace.opening).foldl Balance.push balance).net =
      balance.net + count := by
  induction count generalizing balance with
  | zero => simp
  | succ count ih =>
      rw [List.replicate_succ, List.foldl_cons, ih]
      simp only [Balance.push]
      omega

theorem leavesOpen_eq_false_of_scansAlike {numerals : List Numeral}
    (h : ScansAlike (spell [] (withBraces numerals))) :
    ∀ numeral ∈ numerals, numeral.leavesOpen = false := by
  have hnet := congrArg Balance.net h.1
  simp only [Balance.ofText, Brace.list] at hnet
  rw [listFrom_literal_spell_withBraces, net_foldl_push_opening] at hnet
  change ((Brace.listFrom .lexical (.code false) _).foldl Balance.push _).net = _ at hnet
  rw [listFrom_spell_withBraces, net_foldl_push_opening] at hnet
  have hcount : (numerals.countP fun numeral => !numeral.leavesOpen) = numerals.length := by
    omega
  simpa using List.countP_eq_length.mp hcount

/-- The integer literals among which both ways of scanning agree, whatever plain text stands between
them, are those that leave no quote open. All but hexadecimal ones are such. -/
theorem scansAlike_spell_iff (numerals : List Numeral) :
    ((∀ front pieces, pieces.map Prod.fst = numerals → ArePlain front pieces →
        ScansAlike (spell front pieces)) ↔
      ∀ numeral ∈ numerals, numeral.leavesOpen = false) ∧
    ∀ numeral : Numeral, numeral.radix ≠ .hexadecimal → numeral.leavesOpen = false := by
  refine ⟨⟨?_, ?_⟩, fun numeral => leavesOpen_eq_false_of_radix⟩
  · intro halike
    apply leavesOpen_eq_false_of_scansAlike
    refine halike [] (withBraces numerals) ?_ (arePlain_withBraces numerals)
    simp [withBraces, Function.comp_def]
  · rintro hclosed front pieces rfl hplain
    exact scansAlike_spell hplain fun piece hmem => hclosed _ (List.mem_map_of_mem hmem)

/-- Decimal separators, and a hexadecimal one behind a letter. -/
theorem scansAlike_spell_iff_million :
    let million : Numeral := ⟨.decimal, "", ["1", "000", "000"], by decide, by decide, by decide⟩
    let letters : Numeral := ⟨.hexadecimal, "0x", ["A", "B"], by decide, by decide, by decide⟩
    ScansAlike (spell "\x7b int n = " [(million, "; if (n) \x7b \x7d \x7d")]) ∧
      (¬ ∀ front pieces, pieces.map Prod.fst = [letters] → ArePlain front pieces →
        ScansAlike (spell front pieces)) ∧
      Block.closingBrace? (spell "\x7b x = " [(letters, "; \x7d")]) 0 .lexical = none ∧
      Block.closingBrace? (spell "\x7b x = " [(letters, "; \x7d")]) 0 .literal = some 13 := by
  intro million letters
  refine ⟨?_, ?_, by decide, by decide⟩
  · exact (scansAlike_spell_iff [million]).1.mpr (by decide) _ _ rfl ⟨by decide, by decide⟩
  · intro halike
    have hclosed := (scansAlike_spell_iff [letters]).1.mp halike letters List.mem_cons_self
    exact absurd hclosed (by decide)

end Numeral

end MemberSplit.Lexical
