import MemberSplit.Proofs.Lexical.Token
import MemberSplit.Proofs.Text.Cut

/-!
# Braces between tokens

The braces of a source are the braces among the tokens of its code. So it can be told from the
tokens how many blocks are open behind them, and where the block ends that they are in.
-/

namespace MemberSplit

theorem Brace.depthAfter?_add {depth between : Nat} {brace : Option Brace}
    (h : depthAfter? depth brace = some between) (more : Nat) :
    depthAfter? (depth + more) brace = some (between + more) := by
  rcases brace with - | - | -
  · obtain rfl : depth = between := Option.some.inj h
    rfl
  · obtain rfl : depth + 1 = between := Option.some.inj h
    exact congrArg some (Nat.add_right_comm depth more 1)
  · cases depth with
    | zero => cases h
    | succ depth =>
        obtain rfl : depth = between := Option.some.inj h
        rw [Nat.add_right_comm]
        rfl

namespace Lexical.Token

variable {tokens front back : List Token} {depth depth' : Nat}

/-- The brace that the token is. -/
def brace? : Token → Option Brace
  | code c => Brace.ofChar? .start c
  | _ => none

theorem eq_of_brace?_opening {token : Token} (h : token.brace? = some .opening) :
    token = code '{' := by
  cases token with
  | slash | lineComment | blockComment | literal => cases h
  | code c =>
      by_cases hopen : c = '{'
      · rw [hopen]
      · by_cases hclose : c = '}' <;> simp [brace?, Brace.ofChar?, hopen, hclose] at h

theorem eq_of_brace?_closing {token : Token} (h : token.brace? = some .closing) :
    token = code '}' := by
  cases token with
  | slash | lineComment | blockComment | literal => cases h
  | code c => rw [Brace.eq_of_ofChar?_closing h]

/-- The number of open blocks behind some tokens with `depth` open blocks in front of them, unless
the tokens close a block that is not open. -/
def depthThrough? : (depth : Nat) → List Token → Option Nat
  | depth, [] => some depth
  | depth, token :: rest => (Brace.depthAfter? depth token.brace?).bind (depthThrough? · rest)

/-- Whether each brace has its partner among the tokens. -/
def areNested (tokens : List Token) : Bool :=
  depthThrough? 0 tokens = some 0

theorem depthThrough?_cons_eq_some {token : Token} {rest : List Token}
    (h : depthThrough? depth (token :: rest) = some depth') :
    ∃ between, Brace.depthAfter? depth token.brace? = some between ∧
      depthThrough? between rest = some depth' :=
  Option.bind_eq_some_iff.mp h

theorem depthThrough?_append (h : depthThrough? depth front = some depth') :
    depthThrough? depth (front ++ back) = depthThrough? depth' back := by
  induction front generalizing depth with
  | nil =>
      obtain rfl : depth = depth' := Option.some.inj h
      rfl
  | cons token rest ih =>
      obtain ⟨between, hhere, hrest⟩ := depthThrough?_cons_eq_some h
      rw [List.cons_append, depthThrough?, hhere, Option.bind_some, ih hrest]

/-- Blocks that are open in front of some tokens are still open behind them, if they close what they
open. -/
theorem depthThrough?_add (h : depthThrough? depth tokens = some depth') (more : Nat) :
    depthThrough? (depth + more) tokens = some (depth' + more) := by
  induction tokens generalizing depth with
  | nil =>
      obtain rfl : depth = depth' := Option.some.inj h
      rfl
  | cons token rest ih =>
      obtain ⟨between, hhere, hrest⟩ := depthThrough?_cons_eq_some h
      rw [depthThrough?, Brace.depthAfter?_add hhere more, Option.bind_some, ih hrest]

theorem passes_spaces (count : Nat) (rest : Text) :
    Brace.Passes .literal rest .start (List.replicate count ' ') .start :=
  Brace.passes_of_forall (fun _ hmem => List.eq_of_mem_replicate hmem ▸ rfl) (fun _ _ _ => rfl) rest

/-- Literal scanning of a blanked token goes by the brace of the token. -/
theorem lengthFrom?_blanked {token : Token}
    (h : Brace.depthAfter? depth token.brace? = some depth') (rest : Text) :
    Block.lengthFrom? .literal .start depth (token.blanked ++ rest) =
      (Block.lengthFrom? .literal .start depth' rest).map (token.blanked.byteLength + ·) := by
  cases token with
  | code c =>
      have hbrace : Brace.depthAfter? depth (Brace.ofChar? .start c) = some depth' := h
      have htext : (code c).blanked = [c] := rfl
      rw [htext, List.singleton_append, Block.lengthFrom?_cons, hbrace, Option.elim_some,
        Text.byteLength, Text.byteLength_nil, Nat.add_zero]
      rfl
  | slash =>
      obtain rfl : depth = depth' := Option.some.inj h
      have hslash : Brace.Passes .literal rest .start slash.blanked .start := ⟨rfl, rfl⟩
      exact Block.lengthFrom?_append hslash depth
  | lineComment inner | blockComment inner | literal mark inner =>
      obtain rfl : depth = depth' := Option.some.inj h
      exact Block.lengthFrom?_append (passes_spaces _ rest) depth

/-- Literal scanning of blanked tokens goes by the braces of the tokens. -/
theorem lengthFrom?_blank (h : depthThrough? depth tokens = some depth') (rest : Text) :
    Block.lengthFrom? .literal .start depth (blank tokens ++ rest) =
      (Block.lengthFrom? .literal .start depth' rest).map ((blank tokens).byteLength + ·) := by
  induction tokens generalizing depth with
  | nil =>
      obtain rfl : depth = depth' := Option.some.inj h
      simp [blank]
  | cons token others ih =>
      obtain ⟨between, hhere, hothers⟩ := depthThrough?_cons_eq_some h
      have hblank : blank (token :: others) = token.blanked ++ blank others := rfl
      rw [hblank, List.append_assoc, lengthFrom?_blanked hhere, ih hothers, Option.map_map]
      congr 1
      funext length
      simp [Text.byteLength_append, Nat.add_assoc]

/-- A block that holds some tokens with their partners ends behind them. -/
theorem split?_spell (hapart : areApart none (tokens ++ [code '}']) = true)
    (hnested : areNested tokens = true) (after : Text) :
    Block.split? .lexical (spell tokens ++ '}' :: after) = some (spell tokens ++ ['}'], after) := by
  have hspell : spell (tokens ++ [code '}']) = spell tokens ++ ['}'] := List.flatMap_append
  have hblank : blank (tokens ++ [code '}']) = blank tokens ++ ['}'] := List.flatMap_append
  have hlength : Block.lengthFrom? .lexical .start 0 (spell tokens ++ ['}']) =
      some (spell tokens ++ ['}']).byteLength := by
    have hscan := (scansLike_blank hapart).block 0
    rw [hspell, hblank, lengthFrom?_blank (of_decide_eq_true hnested), byteLength_blank] at hscan
    rw [Text.byteLength_append]
    exact hscan
  obtain ⟨⟨inner, left⟩, hsplit, hinner⟩ := Option.map_eq_some_iff.mp hlength
  have htext := Block.splitFrom?_append hsplit
  have hleft : left = [] := by
    have hbytes := congrArg Text.byteLength htext
    rw [Text.byteLength_append, hinner] at hbytes
    exact Text.byteLength_eq_zero_iff.mp (by omega)
  rw [hleft, List.append_nil] at htext
  have hcongr := Block.splitFrom?_congr hsplit after
  rw [htext, List.append_assoc] at hcongr
  exact hcongr

end Lexical.Token

end MemberSplit
