import MemberSplit.Proofs.Signature.Character
import MemberSplit.Proofs.Signature.Place
import MemberSplit.Proofs.Signature.Silence

/-!
# What a signature is read from

Whatever return type the search settles on, the pieces behind it come from one reading of a name and
of what follows the name. So the pieces have the shapes that the readers admit: only the name of the
call operator holds a parenthesis, and no parameter list begins by closing one.
-/

namespace MemberSplit.Signature

/-- The pieces of a signature, apart from the return type, are those found behind a name. -/
def Parts.AreRead (parts : Parts) (pattern : Pattern) (body : Text) : Prop :=
  ∃ text name others found, (name, others) ∈ Name.starts pattern.layout.isGap text ∧
    pattern.afterName? name others = some (found, body) ∧
    parts = { found with result := parts.result }

namespace Pattern

variable {pattern : Pattern} {parts : Parts} {text lead body : Text}

/-- A property that pieces behind an owner have, and that stays when a return type is put in front
of them. -/
structure IsInherited (pattern : Pattern) (P : Parts → Text → Prop) : Prop where
  owner : ∀ {before : Option Char} {text body : Text} {parts : Parts},
    pattern.atOwner? before text = some (parts, body) → P parts body
  result : ∀ {lead body : Text} {parts : Parts}, (∀ c ∈ lead, pattern.isResultChar c = true) →
    P parts body → P (extendResult lead (parts, body)).1 body

namespace IsInherited

variable {P : Parts → Text → Prop}

theorem of_inResult? (h : pattern.IsInherited P) {before : Char}
    (hfound : pattern.inResult? before text = some (parts, body)) : P parts body := by
  induction text generalizing before parts with
  | nil =>
      unfold inResult? at hfound
      split at hfound
      next howner =>
        obtain rfl := Option.some.inj hfound
        exact h.owner howner
      next => cases hfound
  | cons c rest ih =>
      unfold inResult? at hfound
      split at hfound
      next howner =>
        obtain rfl := Option.some.inj hfound
        exact h.owner howner
      next =>
        obtain ⟨hc, hmap⟩ := Option.ite_none_right_eq_some.mp hfound
        obtain ⟨⟨parts', body'⟩, hrest, heq⟩ := Option.map_eq_some_iff.mp hmap
        obtain ⟨rfl, rfl⟩ := Prod.mk.inj heq
        exact h.result (List.forall_mem_singleton.mpr hc) (ih hrest)

theorem of_withResult? (h : pattern.IsInherited P)
    (hfound : pattern.withResult? text = some (parts, body)) : P parts body := by
  unfold withResult? at hfound
  split at hfound
  next => cases hfound
  next c rest =>
    obtain ⟨hopens, hmap⟩ := Option.ite_none_right_eq_some.mp hfound
    obtain ⟨⟨parts', body'⟩, hrest, heq⟩ := Option.map_eq_some_iff.mp hmap
    obtain ⟨rfl, rfl⟩ := Prod.mk.inj heq
    exact h.result (List.forall_mem_singleton.mpr (isResultChar_of_opens hopens))
      (h.of_inResult? hrest)

theorem of_match? (h : pattern.IsInherited P)
    (hfound : pattern.match? text = some (parts, body)) : P parts body := by
  simp only [match?, Option.map_eq_some_iff] at hfound
  obtain ⟨⟨parts', body'⟩, hfound, heq⟩ := hfound
  obtain ⟨rfl, rfl⟩ := Prod.mk.inj heq
  apply h.result
  · intro c hmem
    exact isResultChar_of_isLineBlank (List.mem_takeWhile_imp hmem)
  · split at hfound
    next hresult =>
      obtain rfl := Option.some.inj hfound
      exact h.of_withResult? hresult
    next => exact h.owner hfound

end IsInherited

theorem areRead_of_atOwner? {before : Option Char}
    (h : pattern.atOwner? before text = some (parts, body)) : parts.AreRead pattern body := by
  unfold atOwner? at h
  split at h
  · cases h
  next rest _ =>
    obtain ⟨⟨name, others⟩, hname, hfound⟩ := List.exists_of_findSome?_eq_some h
    exact ⟨rest, name, others, parts, hname, hfound, rfl⟩

theorem isInherited_areRead (pattern : Pattern) :
    pattern.IsInherited fun parts body => parts.AreRead pattern body := by
  refine ⟨areRead_of_atOwner?, ?_⟩
  rintro lead body parts - ⟨text, name, others, found, hname, hfound, hparts⟩
  refine ⟨text, name, others, found, hname, hfound, ?_⟩
  rw [extendResult, hparts]

/-- Every signature that is found has been read from the start of a text. -/
theorem exists_match?_of_mem_signaturesFrom {offset : Nat} {atLineStart : Bool}
    {signature : Signature} (hmem : signature ∈ pattern.signaturesFrom offset atLineStart text) :
    signature.head = signature.parts.text pattern ∧
      ∃ start, pattern.match? start = some (signature.parts, signature.afterBrace) := by
  fun_induction signaturesFrom pattern offset atLineStart text
  case case1 => cases hmem
  case case2 offset atLineStart c rest parts afterBrace hmatch head ih =>
      rcases List.mem_cons.mp hmem with rfl | hlater
      · obtain ⟨-, hmatch⟩ := Option.ite_none_right_eq_some.mp hmatch
        exact ⟨rfl, c :: rest, hmatch⟩
      · exact ih hlater
  case case3 offset atLineStart c rest _ ih => exact ih hmem

/-- A signature that begins at a cut has been read from what is behind the cut. -/
theorem match?_of_mem_signatures {signature : Signature} {before behind : Text}
    (hmem : signature ∈ pattern.signatures (before ++ behind))
    (hstart : signature.start = before.byteLength) :
    signature.head = signature.parts.text pattern ∧
      pattern.match? behind = some (signature.parts, signature.afterBrace) := by
  obtain ⟨lead, hsource, hlead, -⟩ := standsIn_of_mem_signatures hmem
  obtain ⟨hhead, start, hmatch⟩ := exists_match?_of_mem_signaturesFrom hmem
  obtain ⟨-, rfl⟩ := Text.append_inj hsource (hlead.trans hstart).symm
  refine ⟨hhead, ?_⟩
  rw [hhead, match?_append hmatch]
  exact hmatch

/-- Every signature of a text has been read behind a name. -/
theorem areRead_of_mem_signaturesFrom {offset : Nat} {atLineStart : Bool} {signature : Signature}
    (hmem : signature ∈ pattern.signaturesFrom offset atLineStart text) :
    signature.parts.AreRead pattern signature.afterBrace := by
  obtain ⟨-, start, hmatch⟩ := exists_match?_of_mem_signaturesFrom hmem
  exact (isInherited_areRead pattern).of_match? hmatch

end Pattern

section Names

variable {isGap : Char → Bool} {text name others : Text}

theorem not_mem_of_identifier? (h : Name.identifier? text = some (name, others)) :
    '(' ∉ name := by
  cases text with
  | nil => cases h
  | cons c rest =>
      obtain ⟨hstart, hsome⟩ := Option.ite_none_right_eq_some.mp h
      obtain ⟨rfl, -⟩ := Prod.mk.inj (Option.some.inj hsome)
      intro hmem
      rcases List.mem_cons.mp hmem with rfl | hrest
      · exact absurd hstart (by decide)
      · exact absurd (List.mem_takeWhile_imp hrest) (by decide)

theorem not_mem_of_plain? (h : Name.plain? text = some (name, others)) : '(' ∉ name := by
  unfold Name.plain? at h
  split at h
  · obtain ⟨⟨name', others'⟩, hname, heq⟩ := Option.map_eq_some_iff.mp h
    obtain ⟨rfl, rfl⟩ := Prod.mk.inj heq
    intro hmem
    rcases List.mem_append.mp hmem with htilde | hrest
    · exact absurd htilde (by decide)
    · exact not_mem_of_identifier? hname hrest
  · exact not_mem_of_identifier? h

theorem not_mem_of_symbolRun? (h : Name.symbolRun? text = some (name, others)) : '(' ∉ name := by
  unfold Name.symbolRun? at h
  split at h
  · cases h
  · obtain ⟨rfl, -⟩ := Prod.mk.inj (Option.some.inj h)
    intro hmem
    exact absurd (List.mem_takeWhile_imp hmem) (by decide)

/-- What is left of an operator's name without its white space. -/
theorem withoutBlanks_of_operator? (hgap : ∀ c, isGap c = true → isBlank c = true)
    {symbol? : Text → Option (Text × Text)}
    (h : Name.operator? isGap symbol? text = some (name, others)) :
    ∃ rest symbol, symbol? rest = some (symbol, others) ∧
      name.withoutBlanks = Name.operatorWord ++ Text.withoutBlanks symbol := by
  unfold Name.operator? at h
  split at h
  · cases h
  next rest _ =>
    obtain ⟨⟨symbol, others'⟩, hsymbol, heq⟩ := Option.map_eq_some_iff.mp h
    obtain ⟨rfl, rfl⟩ := Prod.mk.inj heq
    refine ⟨_, symbol, hsymbol, ?_⟩
    have hblank : Text.withoutBlanks (rest.takeWhile isGap) = [] := by
      apply List.filter_eq_nil_iff.mpr
      intro c hc
      simp [hgap c (List.mem_takeWhile_imp hc)]
    have hword : Text.withoutBlanks Name.operatorWord = Name.operatorWord := by decide
    rw [Text.withoutBlanks, List.filter_append, List.filter_append]
    simp only [Text.withoutBlanks] at hblank hword ⊢
    rw [hblank, hword, List.append_nil]

/-- The name of the call operator is the only one that holds a parenthesis. -/
theorem withoutBlanks_of_mem_starts (hgap : ∀ c, isGap c = true → isBlank c = true)
    (h : (name, others) ∈ Name.starts isGap text) :
    '(' ∉ name.withoutBlanks ∨ name.withoutBlanks = Name.operatorWord ++ "()".toList := by
  have hkept : ∀ {part : Text}, '(' ∉ part → '(' ∉ part.withoutBlanks := fun hpart hmem =>
    hpart (List.mem_filter.mp hmem).1
  simp only [Name.starts, List.mem_filterMap, List.mem_cons, List.not_mem_nil, or_false, id,
    exists_eq_right] at h
  rcases h with hplain | hcall | hrun
  · exact .inl (hkept (not_mem_of_plain? hplain.symm))
  · obtain ⟨rest, symbol, hsymbol, hname⟩ := withoutBlanks_of_operator? hgap hcall.symm
    obtain ⟨_, -, heq⟩ := Option.map_eq_some_iff.mp hsymbol
    obtain ⟨rfl, -⟩ := Prod.mk.inj heq
    exact .inr hname
  · obtain ⟨rest, symbol, hsymbol, hname⟩ := withoutBlanks_of_operator? hgap hrun.symm
    left
    rw [hname]
    intro hmem
    rcases List.mem_append.mp hmem with hword | hrest
    · exact absurd hword (by decide)
    · exact hkept (not_mem_of_symbolRun? hsymbol) hrest

end Names

/-- In the text between the parentheses of a parameter list, an inner parenthesis is opened before
one is closed. -/
theorem mem_of_params? {layout : Layout} {text params rest before after : Text}
    (h : params? layout false text = some (params, rest))
    (hclosing : params = before ++ ')' :: after) : '(' ∈ before := by
  induction text generalizing params before with
  | nil => cases h
  | cons c others ih =>
      simp only [params?] at h
      split at h
      next =>
        obtain ⟨rfl, -⟩ := Prod.mk.inj (Option.some.inj h)
        simp at hclosing
      next hc =>
        -- Up to the first inner parenthesis, the characters are those of the text.
        have hbefore : ∀ {tail : Text}, c :: tail = before ++ ')' :: after →
            ∃ before', before = c :: before' ∧ tail = before' ++ ')' :: after := by
          intro tail htail
          cases before with
          | nil => exact absurd (List.cons.inj htail).1 hc
          | cons c' before' =>
              obtain ⟨rfl, rfl⟩ := List.cons.inj htail
              exact ⟨before', rfl, rfl⟩
        split at h
        next hopen =>
          obtain ⟨⟨params', rest'⟩, -, heq⟩ := Option.map_eq_some_iff.mp h
          obtain ⟨rfl, -⟩ := Prod.mk.inj heq
          obtain ⟨before', rfl, -⟩ := hbefore hclosing
          rw [hopen]
          exact List.mem_cons_self
        next =>
          split at h
          next => cases h
          next =>
            obtain ⟨⟨params', rest'⟩, hrest, heq⟩ := Option.map_eq_some_iff.mp h
            obtain ⟨rfl, rfl⟩ := Prod.mk.inj heq
            obtain ⟨before', rfl, htail⟩ := hbefore hclosing
            exact List.mem_cons_of_mem _ (ih hrest htail)

namespace Parts.AreRead

variable {parts : Parts} {pattern : Pattern} {body : Text}

/-- The pieces of a signature from the name on, each read where the one in front of it ends. -/
theorem exists_pieces (h : parts.AreRead pattern body) :
    ∃ text others inner behind, (parts.name, others) ∈ Name.starts pattern.layout.isGap text ∧
      (∀ c ∈ parts.gap, pattern.layout.isGap c = true) ∧
      params? pattern.layout false inner = some (parts.params, behind) ∧
      parts.qualifiers = (Signature.qualifiers pattern.layout behind).1 ∧
      beforeBody? pattern.layout (Signature.qualifiers pattern.layout behind).2 =
        some (parts.closing, body) := by
  obtain ⟨text, name, others, found, hname, hfound, hparts⟩ := h
  unfold Pattern.afterName? at hfound
  split at hfound
  next inner _ =>
    split at hfound
    next => cases hfound
    next params behind hparams =>
      obtain ⟨⟨closing, body'⟩, hclosing, heq⟩ := Option.map_eq_some_iff.mp hfound
      obtain ⟨rfl, rfl⟩ := Prod.mk.inj heq
      rw [hparts]
      exact ⟨text, others, inner, behind, hname, fun _ => List.mem_takeWhile_imp, hparams, rfl,
        hclosing⟩
  next => cases hfound

theorem withoutBlanks_name (h : parts.AreRead pattern body) :
    '(' ∉ parts.name.withoutBlanks ∨
      parts.name.withoutBlanks = Name.operatorWord ++ "()".toList := by
  obtain ⟨text, others, inner, behind, hname, -⟩ := h.exists_pieces
  exact withoutBlanks_of_mem_starts (fun _ => Layout.isBlank_of_isGap) hname

theorem mem_of_params {before after : Text} (h : parts.AreRead pattern body)
    (hclosing : parts.params = before ++ ')' :: after) : '(' ∈ before := by
  obtain ⟨text, others, inner, behind, -, -, hparams, -⟩ := h.exists_pieces
  exact mem_of_params? hparams hclosing

end Parts.AreRead

end MemberSplit.Signature
