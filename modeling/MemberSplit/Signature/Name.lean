import MemberSplit.Text.Boundary

/-!
# Names of members

A member function is named by an identifier, by a tilde and an identifier, or by the word
`operator` and the operator's symbols. A text can start with more than one such name, for the word
`operator` is an identifier too; `Name.starts` lists them all, the identifier first.
-/

namespace MemberSplit.Name

/-- Splits a text after the identifier that it starts with. -/
def identifier? : Text → Option (Text × Text)
  | [] => none
  | c :: rest =>
    if isIdentStart c then some (c :: rest.takeWhile isWordChar, rest.dropWhile isWordChar)
    else none

/-- Splits a text after an identifier with or without a tilde. -/
def plain? : Text → Option (Text × Text)
  | '~' :: rest => (identifier? rest).map (Text.extend ['~'])
  | text => identifier? text

/-- The word that operator names start with. -/
def operatorWord : Text := "operator".toList

/-- A character that can be part of an operator's symbol; the round brackets of a call are a
symbol of their own. -/
def isSymbol (c : Char) : Bool :=
  !isWordChar c && !isBlank c && c != '('

/-- Splits a text after the symbol of the call operator. -/
def callSymbol? (text : Text) : Option (Text × Text) :=
  (text.dropLead? "()".toList).map fun rest => ("()".toList, rest)

/-- Splits a text after its run of symbol characters. -/
def symbolRun? (text : Text) : Option (Text × Text) :=
  match text.takeWhile isSymbol with
  | [] => none
  | symbol => some (symbol, text.dropWhile isSymbol)

/-- Splits a text after an operator name, whose symbol `symbol?` finds. -/
def operator? (isGap : Char → Bool) (symbol? : Text → Option (Text × Text)) (text : Text) :
    Option (Text × Text) :=
  match text.dropLead? operatorWord with
  | none => none
  | some rest =>
    (symbol? (rest.dropWhile isGap)).map (Text.extend (operatorWord ++ rest.takeWhile isGap))

/-- All ways to split a text after a name that it starts with, in the order in which they are
tried. -/
def starts (isGap : Char → Bool) (text : Text) : List (Text × Text) :=
  [plain? text, operator? isGap callSymbol? text, operator? isGap symbolRun? text].filterMap id

theorem identifier?_append {text name rest : Text} (h : identifier? text = some (name, rest)) :
    name ++ rest = text := by
  cases text with
  | nil => simp [identifier?] at h
  | cons c others =>
    simp only [identifier?] at h
    split at h
    · simp only [Option.some.injEq, Prod.mk.injEq] at h
      obtain ⟨rfl, rfl⟩ := h
      simp
    · simp at h

theorem plain?_append {text name rest : Text} (h : plain? text = some (name, rest)) :
    name ++ rest = text := by
  unfold plain? at h
  split at h
  · simp only [Option.map_eq_some_iff, Prod.exists, Text.extend_mk, Prod.mk.injEq] at h
    obtain ⟨name', rest', h, rfl, rfl⟩ := h
    simp [identifier?_append h]
  · exact identifier?_append h

theorem callSymbol?_append {text name rest : Text} (h : callSymbol? text = some (name, rest)) :
    name ++ rest = text := by
  simp only [callSymbol?, Option.map_eq_some_iff, Prod.mk.injEq] at h
  obtain ⟨rest', h, rfl, rfl⟩ := h
  exact Text.dropLead?_eq_some_iff.mp h

theorem symbolRun?_append {text name rest : Text} (h : symbolRun? text = some (name, rest)) :
    name ++ rest = text := by
  unfold symbolRun? at h
  split at h
  · simp at h
  · simp only [Option.some.injEq, Prod.mk.injEq] at h
    obtain ⟨rfl, rfl⟩ := h
    exact List.takeWhile_append_dropWhile

theorem operator?_append {isGap : Char → Bool} {symbol? : Text → Option (Text × Text)}
    (hsymbol : ∀ {text name rest}, symbol? text = some (name, rest) → name ++ rest = text)
    {text name rest : Text} (h : operator? isGap symbol? text = some (name, rest)) :
    name ++ rest = text := by
  unfold operator? at h
  split at h
  · simp at h
  next others hword =>
    simp only [Option.map_eq_some_iff, Prod.exists, Text.extend_mk, Prod.mk.injEq] at h
    obtain ⟨symbol, rest', h, rfl, rfl⟩ := h
    rw [← Text.dropLead?_eq_some_iff.mp hword, List.append_assoc, List.append_assoc,
      hsymbol h, List.takeWhile_append_dropWhile]

/-- A name and what follows it make up the text. -/
theorem append_of_mem_starts {isGap : Char → Bool} {text name rest : Text}
    (h : (name, rest) ∈ starts isGap text) : name ++ rest = text := by
  simp only [starts, List.mem_filterMap, List.mem_cons, List.not_mem_nil, or_false, id,
    exists_eq_right] at h
  rcases h with h | h | h
  · exact plain?_append h.symm
  · exact operator?_append callSymbol?_append h.symm
  · exact operator?_append symbolRun?_append h.symm

end MemberSplit.Name
