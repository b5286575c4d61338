import MemberSplit.Proofs.Brace.Block
import MemberSplit.Proofs.Brace.Joining
import MemberSplit.Proofs.Destination.Position
import MemberSplit.Proofs.Extraction.Comment
import MemberSplit.Proofs.Extraction.Invariant

/-!
# What can unbalance a file

Bodies are balanced, and comments travel only if they are. So in literal scanning the braces of a
file are off by what its preamble and its signatures are off by.
-/

namespace MemberSplit

variable {source : Text} {definition : Definition}

namespace Extractor

theorem ofText_travellingComment (gap : Text) :
    Balance.ofText .literal (travellingComment .literal gap) = .zero := by
  unfold travellingComment
  split
  next => rfl
  next =>
    dsimp only
    split
    next => rfl
    next htravels =>
      simp only [Bool.not_eq_true, Bool.or_eq_false_iff, Bool.not_eq_false'] at htravels
      exact Balance.ofText_literal_append_eq_zero
        (Balance.isBalanced_ofText_iff.mp htravels.2) rfl

variable {extractor : Extractor}

/-- The braces of the comments and of the body match, so the signature decides how those of the
definition balance. -/
theorem ofText_comment_and_body (hmode : extractor.mode = .literal)
    (hmem : definition ∈ (extractor.extract source).definitions) :
    Balance.ofText .literal definition.comment = .zero ∧
      Balance.ofText .literal definition.body = .zero := by
  obtain ⟨gap, hgap⟩ := exists_travellingComment hmem
  obtain ⟨inner, _, _, hbody, hsplit⟩ := exists_split?_of_mem hmem
  rw [hmode] at hgap hsplit
  rw [hgap, hbody]
  exact ⟨ofText_travellingComment gap, Block.ofText_of_split? hsplit⟩

theorem net_text_of_mem (hmode : extractor.mode = .literal)
    (hmem : definition ∈ (extractor.extract source).definitions) :
    (Balance.ofText .literal definition.text).net =
      (Balance.ofText .literal definition.head).net := by
  obtain ⟨hcomment, hbody⟩ := ofText_comment_and_body hmode hmem
  rw [Definition.text, Balance.net_literal_append, Balance.net_literal_append, hcomment, hbody]
  simp [Balance.zero]

theorem ofText_text_eq_zero (hmode : extractor.mode = .literal)
    (hmem : definition ∈ (extractor.extract source).definitions)
    (hhead : Balance.ofText .literal definition.head = .zero) :
    Balance.ofText .literal definition.text = .zero := by
  obtain ⟨hcomment, hbody⟩ := ofText_comment_and_body hmode hmem
  exact Balance.ofText_literal_append_eq_zero
    (Balance.ofText_literal_append_eq_zero hcomment hhead) hbody

end Extractor

namespace Destination

/-- Between the preamble and the definitions stands a blank line, or nothing. -/
theorem exists_text_eq (destination : Destination) :
    ∃ blank, Balance.ofText .literal blank = .zero ∧
      destination.text = Text.joinWith ['\n'] destination.preamble ++ (blank ++
        (Text.joinWith "\n\n" (destination.definitions.map Definition.text) ++ ['\n'])) := by
  cases hpreamble : destination.preamble with
  | nil => exact ⟨[], rfl, by simp [text, hpreamble, Text.concat, Text.joinWith]⟩
  | cons line others => exact ⟨"\n\n", by decide, by simp [text, hpreamble, Text.concat]⟩

/-- Blank lines hold no braces, so a file is off by what its preamble and its definitions are off
by. -/
theorem net_balance_literal (destination : Destination) :
    (destination.balance .literal).net =
      (Balance.ofText .literal (Text.joinWith ['\n'] destination.preamble)).net +
        (destination.definitions.map fun definition =>
          (Balance.ofText .literal definition.text).net).sum := by
  obtain ⟨blank, hblank, htext⟩ := destination.exists_text_eq
  have hgap : Balance.ofText .literal ("\n\n" : Text) = .zero := by decide
  have hdefinitions := Balance.net_literal_joinWith hgap
    (destination.definitions.map Definition.text)
  have hend : (Balance.ofText .literal ['\n']).net = 0 := rfl
  rw [List.map_map] at hdefinitions
  rw [balance, htext, Balance.net_literal_append, Balance.net_literal_append,
    Balance.net_literal_append, hdefinitions, hblank, hend]
  simp [Balance.zero, Function.comp_def]

theorem balance_literal_eq_zero {destination : Destination}
    (hpreamble : Balance.ofText .literal (Text.joinWith ['\n'] destination.preamble) = .zero)
    (hdefinitions : ∀ definition ∈ destination.definitions,
      Balance.ofText .literal definition.text = .zero) :
    destination.balance .literal = .zero := by
  obtain ⟨blank, hblank, htext⟩ := destination.exists_text_eq
  have hjoined : Balance.ofText .literal
      (Text.joinWith "\n\n" (destination.definitions.map Definition.text)) = .zero := by
    apply Balance.ofText_literal_joinWith_eq_zero (by decide)
    intro part hmem
    obtain ⟨definition, hdefinition, rfl⟩ := List.mem_map.mp hmem
    exact hdefinitions definition hdefinition
  have hrest := Balance.ofText_literal_append_eq_zero hblank
    (Balance.ofText_literal_append_eq_zero hjoined (by decide : Balance.ofText .literal ['\n'] = _))
  rw [balance, htext]
  exact Balance.ofText_literal_append_eq_zero hpreamble hrest

end Destination

namespace Grouping

variable {namer : FileNaming} {preamble : Preamble} {list : List Classified}

/-- A file holds nothing but what was to be distributed. -/
theorem exists_classified_of_mem {destination : Destination}
    (hmem : destination ∈ (ofClassified namer preamble list).destinations)
    (hdefinition : definition ∈ destination.definitions) :
    ∃ classified ∈ list, classified.definition = definition := by
  rw [definitions_of_mem hmem] at hdefinition
  obtain ⟨placement, hplacement, rfl⟩ := List.mem_map.mp hdefinition
  have hkept := (Placement.firsts_sublist [] _).subset (List.mem_of_mem_filter hplacement)
  obtain ⟨classified, hclassified, rfl⟩ := List.mem_map.mp hkept
  exact ⟨classified, hclassified, rfl⟩

/-- In literal scanning, only the preamble and the signatures can unbalance a file: its net depth is
theirs taken together, and if they are balanced then it is. For the balance of two texts in a row is
the balance of the first and then of the second. -/
theorem net_balance_and_isBalanced (pattern : Signature.Pattern) (source : Text) (config : Config)
    (namer : FileNaming) (preamble : Preamble) {destination : Destination}
    (hmem : destination ∈ (ofClassified namer preamble
      ((Extractor.extract ⟨pattern, .literal⟩ source).definitions.map
        config.classified)).destinations) :
    (destination.balance .literal).net =
        (Balance.ofText .literal (Text.joinWith ['\n'] destination.preamble)).net +
          (destination.definitions.map fun definition =>
            (Balance.ofText .literal definition.head).net).sum ∧
      ((Balance.ofText .literal (Text.joinWith ['\n'] destination.preamble)).isBalanced = true →
        (∀ definition ∈ destination.definitions,
          (Balance.ofText .literal definition.head).isBalanced = true) →
        (destination.balance .literal).isBalanced = true) ∧
      ∀ first second : Text, Balance.ofText .literal (first ++ second) =
        ⟨(Balance.ofText .literal first).net + (Balance.ofText .literal second).net,
          min (Balance.ofText .literal first).lowest
            ((Balance.ofText .literal first).net + (Balance.ofText .literal second).lowest)⟩ := by
  have hextracted : ∀ definition ∈ destination.definitions,
      definition ∈ (Extractor.extract ⟨pattern, .literal⟩ source).definitions := by
    intro definition hdefinition
    obtain ⟨classified, hclassified, rfl⟩ := exists_classified_of_mem hmem hdefinition
    obtain ⟨extracted, hextracted, rfl⟩ := List.mem_map.mp hclassified
    exact hextracted
  refine ⟨?_, ?_, Balance.ofText_literal_append⟩
  · rw [destination.net_balance_literal]
    congr 2
    apply List.map_congr_left
    intro definition hdefinition
    exact Extractor.net_text_of_mem rfl (hextracted definition hdefinition)
  · intro hpreamble hheads
    rw [Destination.balance, Balance.isBalanced_ofText_iff]
    apply Destination.balance_literal_eq_zero (Balance.isBalanced_ofText_iff.mp hpreamble)
    intro definition hdefinition
    apply Extractor.ofText_text_eq_zero rfl (hextracted definition hdefinition)
    exact Balance.isBalanced_ofText_iff.mp (hheads definition hdefinition)

/-- The preamble of the one file opens a namespace; the other file holds a comment with braces. -/
theorem net_balance_and_isBalanced_open_namespace :
    let source : Text :=
      "void Foo::a(Opts o = \x7b\x7d) \x7b f(); \x7d\n// \x7b\x7d\nvoid Foo::b() \x7b\x7d\n"
    let config : Config := { coreFunctions := .ofList ["b"] }
    let namer := FileNaming.ofConfig config "Foo" none
    let preamble : Preamble := ⟨none, { helper := ["namespace ns \x7b"] }⟩
    ∃ first second, (ofClassified namer preamble
        ((Extractor.extract ⟨⟨"Foo", .wrapped⟩, .literal⟩ source).definitions.map
          config.classified)).destinations = [first, second] ∧
      (first.balance .literal).net = 1 ∧
      second.definitions.map Definition.comment = ["// \x7b\x7d\n"] ∧
      (second.balance .literal).isBalanced = true := by
  intro source config namer preamble
  have hfiles : (ofClassified namer preamble
      ((Extractor.extract ⟨⟨"Foo", .wrapped⟩, .literal⟩ source).definitions.map
        config.classified)).destinations.map (fun destination =>
          (destination.preamble, destination.definitions.map Definition.head)) =
      [((["namespace ns \x7b"] : List Text), (["void Foo::a(Opts o = \x7b\x7d) "] : List Text)),
        ([], (["void Foo::b() "] : List Text))] := by
    decide +kernel
  have hcomments : ((ofClassified namer preamble
      ((Extractor.extract ⟨⟨"Foo", .wrapped⟩, .literal⟩ source).definitions.map
        config.classified)).destinations.map fun destination =>
          destination.definitions.map Definition.comment) =
      [[[]], (["// \x7b\x7d\n"] : List Text)] := by
    decide +kernel
  obtain ⟨first, others, hlist, hfirst, hothers⟩ := List.map_eq_cons_iff.mp hfiles
  obtain ⟨second, later, rfl, hsecond, hlater⟩ := List.map_eq_cons_iff.mp hothers
  obtain rfl := List.map_eq_nil_iff.mp hlater
  obtain ⟨hpreamble, hheads⟩ := Prod.mk.inj hfirst
  obtain ⟨hpreamble', hheads'⟩ := Prod.mk.inj hsecond
  rw [hlist] at hcomments
  have hlocal : ∀ destination ∈ [first, second], destination ∈ (ofClassified namer preamble
      ((Extractor.extract ⟨⟨"Foo", .wrapped⟩, .literal⟩ source).definitions.map
        config.classified)).destinations := by
    intro destination hmem
    rwa [hlist]
  obtain ⟨hnet, -, -⟩ := net_balance_and_isBalanced _ _ _ _ _ (hlocal first (by simp))
  obtain ⟨-, hbalanced, -⟩ := net_balance_and_isBalanced _ _ _ _ _ (hlocal second (by simp))
  refine ⟨first, second, hlist, ?_, (List.cons.inj (List.cons.inj hcomments).2).1, ?_⟩
  · have hsum : (first.definitions.map fun definition =>
        (Balance.ofText .literal definition.head).net) =
          (first.definitions.map Definition.head).map fun head =>
            (Balance.ofText .literal head).net := by
      rw [List.map_map]
      rfl
    rw [hnet, hpreamble, hsum, hheads]
    decide
  · apply hbalanced
    · rw [hpreamble']
      decide
    · intro definition hmem
      have hhead := List.mem_map_of_mem (f := Definition.head) hmem
      rw [hheads', List.mem_singleton] at hhead
      rw [hhead]
      decide

end Grouping

end MemberSplit
