import MemberSplit.Proofs.Brace.Block

/-!
# Going past text without braces

A text that holds no brace which counts has no part in where a block ends and in how the braces
balance, but for its length and for the context that it leads to.
-/

namespace MemberSplit

namespace Brace

open Lexical (Context)

variable {mode : ScanMode} {context behind final : Context} {run rest : Text}

/-- Going through a text in front of `rest` meets no brace that counts, and leads to a context. -/
def Passes (mode : ScanMode) (rest : Text) : Context → Text → Context → Prop
  | context, [], final => context = final
  | context, c :: run, final =>
    ofChar? context c = none ∧
      Passes mode rest (nextContext mode context c (run ++ rest).head?) run final

theorem Passes.append {more : Text} (hrun : Passes mode (more ++ rest) context run behind)
    (hmore : Passes mode rest behind more final) :
    Passes mode rest context (run ++ more) final := by
  induction run generalizing context with
  | nil =>
      obtain rfl : context = behind := hrun
      exact hmore
  | cons c others ih =>
      obtain ⟨hnone, hothers⟩ := hrun
      rw [← List.append_assoc] at hothers
      exact ⟨hnone, ih hothers⟩

/-- A context that every character of a run keeps is still there behind the run. -/
theorem passes_of_forall (hnone : ∀ c ∈ run, ofChar? context c = none)
    (hnext : ∀ c ∈ run, ∀ following, nextContext mode context c following = context)
    (rest : Text) : Passes mode rest context run context := by
  induction run with
  | nil => rfl
  | cons c others ih =>
      refine ⟨hnone c List.mem_cons_self, ?_⟩
      rw [hnext c List.mem_cons_self]
      exact ih (fun d hmem => hnone d (List.mem_cons_of_mem _ hmem))
        fun d hmem => hnext d (List.mem_cons_of_mem _ hmem)

theorem Passes.listFrom_append (h : Passes mode rest context run final) :
    listFrom mode context (run ++ rest) = listFrom mode final rest := by
  induction run generalizing context with
  | nil =>
      obtain rfl : context = final := h
      rfl
  | cons c others ih =>
      obtain ⟨hnone, hothers⟩ := h
      rw [List.cons_append, listFrom, hnone]
      exact ih hothers

end Brace

namespace Block

open Lexical (Context)

variable {mode : ScanMode} {context final : Context} {run rest : Text}

/-- Number of bytes up to the end of the block, where `depth` inner blocks are open. -/
def lengthFrom? (mode : ScanMode) (context : Context) (depth : Nat) (text : Text) : Option Nat :=
  (splitFrom? mode context depth text).map fun parts => parts.1.byteLength

theorem lengthFrom?_cons (mode : ScanMode) (context : Context) (depth : Nat) (c : Char)
    (rest : Text) :
    lengthFrom? mode context depth (c :: rest) =
      (Brace.depthAfter? depth (Brace.ofChar? context c)).elim (some c.utf8Size) fun depth =>
        (lengthFrom? mode (Brace.nextContext mode context c rest.head?) depth rest).map
          (c.utf8Size + ·) := by
  simp only [lengthFrom?, splitFrom?_cons]
  cases Brace.depthAfter? depth (Brace.ofChar? context c) with
  | none => rfl
  | some depth =>
      simp only [Option.elim_some, Option.map_map]
      rfl

theorem lengthFrom?_append (h : Brace.Passes mode rest context run final) (depth : Nat) :
    lengthFrom? mode context depth (run ++ rest) =
      (lengthFrom? mode final depth rest).map (run.byteLength + ·) := by
  induction run generalizing context with
  | nil =>
      obtain rfl : context = final := h
      simp [Text.byteLength]
  | cons c others ih =>
      obtain ⟨hnone, hothers⟩ := h
      rw [List.cons_append, lengthFrom?_cons, hnone, Brace.depthAfter?, Option.elim_some,
        ih hothers, Option.map_map]
      congr 1
      funext length
      simp [Text.byteLength, Nat.add_assoc]

end Block

end MemberSplit
