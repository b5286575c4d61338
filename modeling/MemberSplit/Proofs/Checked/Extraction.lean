import MemberSplit.Checked.Extraction
import MemberSplit.Proofs.Checked.Braces
import MemberSplit.Proofs.Checked.FirstCode
import MemberSplit.Proofs.Extraction.Spans
import MemberSplit.Proofs.Extraction.Unrecognized
import MemberSplit.Proofs.Lexical.CodeStart

/-!
# No check of an extraction fails

Signatures and definitions stand in the source, one behind the other, and a definition ends behind
the brace that closes its body. So each piece of the source that is cut out, for an extraction and
for the gaps behind its definitions, lies between two characters, and each line that is looked up is
one of the source.
-/

namespace MemberSplit.Checked

variable {extractor : Extractor} {source : Text} {mode : ScanMode}

section Candidates

variable {signature : Signature} {inner rest : Text} {previousStop : Option Nat}

theorem travellingComment_eq_ok (mode : ScanMode) (gap : Text) :
    travellingComment mode gap = .ok (Extractor.travellingComment mode gap) := by
  rw [travellingComment, firstCode?_eq_ok, ok_bind, Extractor.travellingComment]
  cases (Lexical.firstCode? gap).isSome with
  | true => rfl
  | false =>
      simp only [Bool.false_eq_true, if_false]
      cases gap.trim.isEmpty with
      | true => rfl
      | false =>
          simp only [Bool.false_eq_true, if_false, balance_eq_ok, ok_bind, Bool.false_or]
          cases (Balance.ofText mode gap.trim).isBalanced <;> rfl

/-- The definition that a signature and the block behind its brace make up. -/
def definitionOf (extractor : Extractor) (source : Text) (previousStop : Option Nat)
    (signature : Signature) (inner : Text) : Definition where
  owner := extractor.pattern.owner
  name := signature.name
  paramList := signature.paramList
  isConst := signature.isConst
  comment := match previousStop with
    | some stop =>
      Extractor.travellingComment extractor.mode (source.slice stop signature.start)
    | none => []
  head := signature.head
  body := '{' :: inner
  start := signature.start
  line := source.lineAt signature.start

theorem stop_definitionOf (extractor : Extractor) (source : Text) (previousStop : Option Nat)
    (signature : Signature) (inner : Text) :
    (definitionOf extractor source previousStop signature inner).stop =
      signature.openingBrace + inner.byteLength + 1 := by
  have hone : Char.utf8Size '{' = 1 := by decide
  simp only [Definition.stop, Definition.bodyOffset, definitionOf, Text.byteLength, hone,
    Signature.openingBrace]
  omega

/-- The offset behind the definition that has been extracted last is a place of the source. -/
def IsStop (source : Text) (previousStop : Option Nat) : Prop :=
  ∀ stop ∈ previousStop, source.IsCut stop

/-- The brace of a signature is found to be closed where its block ends. -/
theorem closingBrace?_of_standsIn (h : signature.StandsIn source) :
    closingBrace? source signature.openingBrace mode =
      .ok ((Block.split? mode signature.afterBrace).map fun parts =>
        signature.openingBrace + parts.1.byteLength) := by
  obtain ⟨before, hsource, hstart, -⟩ := h
  rw [← List.append_assoc] at hsource
  have hopening : signature.openingBrace = (before ++ signature.head).byteLength := by
    rw [Text.byteLength_append, hstart, Signature.openingBrace]
  rw [hopening, closingBrace?_eq_ok mode hsource, hsource, Block.closingBrace?_brace]

theorem readDefinition_eq_ok (h : signature.StandsIn source)
    (hsplit : Block.split? extractor.mode signature.afterBrace = some (inner, rest))
    (hstop : IsStop source previousStop) (hbehind : previousStop.getD 0 ≤ signature.start) :
    readDefinition extractor source previousStop signature
        (signature.openingBrace + inner.byteLength) =
      .ok (definitionOf extractor source previousStop signature inner) := by
  obtain ⟨before, hsource, hstart, -⟩ := h
  have hrest := Block.splitFrom?_append hsplit
  have hcomment : commentBefore extractor.mode source previousStop signature.start =
      .ok (definitionOf extractor source previousStop signature inner).comment := by
    cases previousStop with
    | none => rfl
    | some stop =>
        have hcut : source.IsCut signature.start := ⟨before, _, hsource, hstart⟩
        rw [commentBefore, slice_of_isCut (hstop stop rfl) hcut hbehind, ok_bind,
          travellingComment_eq_ok]
        rfl
  have hopening : (before ++ signature.head).byteLength = signature.openingBrace := by
    rw [Text.byteLength_append, hstart, Signature.openingBrace]
  have hhead : slice source signature.start signature.openingBrace = .ok signature.head :=
    slice_eq_ok_iff.mpr ⟨before, _, hsource, hstart, hopening⟩
  have hbody : slice source signature.openingBrace
      (signature.openingBrace + inner.byteLength + 1) = .ok ('{' :: inner) := by
    refine slice_eq_ok_iff.mpr ⟨before ++ signature.head, rest, ?_, hopening, ?_⟩
    · rw [hsource, ← hrest, List.append_assoc, List.cons_append]
    · have hone : Char.utf8Size '{' = 1 := by decide
      rw [Text.byteLength_append, hopening, Text.byteLength, hone]
      omega
  rw [readDefinition, hcomment, ok_bind, hhead, ok_bind, hbody, ok_bind]
  rfl

theorem isStop_definitionOf (previousStop : Option Nat) (h : signature.StandsIn source)
    (hsplit : Block.split? extractor.mode signature.afterBrace = some (inner, rest)) :
    IsStop source (some (definitionOf extractor source previousStop signature inner).stop) := by
  obtain ⟨before, hsource, hstart, -⟩ := h
  rintro stop ⟨⟩
  refine ⟨before ++ (signature.head ++ '{' :: inner), rest, ?_, ?_⟩
  · rw [hsource, ← Block.splitFrom?_append hsplit]
    simp
  · exact @Definition.byteLength_through (definitionOf _ _ _ _ _) before hstart

/-- Each candidate leaves the offset behind the last definition a place of the source. -/
theorem candidatesFrom_eq_ok {signatures : List Signature}
    (hstand : ∀ signature ∈ signatures, signature.StandsIn source)
    (hstop : IsStop source previousStop) :
    candidatesFrom extractor source previousStop signatures =
      .ok (extractor.candidatesFrom source previousStop signatures) := by
  induction signatures generalizing previousStop with
  | nil => rfl
  | cons signature others ih =>
      obtain ⟨hhere, hothers⟩ := List.forall_mem_cons.mp hstand
      simp only [candidatesFrom, Extractor.candidatesFrom]
      by_cases hnested : signature.start < previousStop.getD 0
      · simp only [hnested, if_true, ih hothers hstop, ok_bind]
        rfl
      · simp only [hnested, if_false, closingBrace?_of_standsIn hhere, ok_bind]
        cases hsplit : Block.split? extractor.mode signature.afterBrace with
        | none =>
            simp only [Option.map_none, ih hothers hstop, ok_bind]
            rfl
        | some parts =>
            obtain ⟨inner, rest⟩ := parts
            have hdefinition := readDefinition_eq_ok hhere hsplit hstop (Nat.le_of_not_lt hnested)
            have hlater := ih hothers (isStop_definitionOf previousStop hhere hsplit)
            have hbehind := stop_definitionOf extractor source previousStop signature inner
            simp only [Option.map_some, hdefinition, ← hbehind, hlater, ok_bind]
            rfl

end Candidates

section Lines

/-- The line of each offset can be looked up and cut out. -/
theorem lineText_lineAt {offset : Nat} (h : offset ≤ source.byteLength) :
    lineText source (source.lineAt offset) = .ok (source.lineText (source.lineAt offset)) := by
  obtain ⟨before, row, after, hline, hcount, hspan, -, -⟩ := Text.exists_isLine_lineAt h
  have hlast : source.lineAt offset ≤ 1 + source.count '\n' := by
    obtain ⟨back, htext, -⟩ := Text.exists_takeBytes_append h
    have hfront := (List.IsPrefix.sublist ⟨back, htext.symm⟩).count_le '\n'
    omega
  rw [lineText, lineSpan_eq_ok (by omega) hlast, ok_bind, hspan]
  have hslice := slice_eq_ok_iff.mpr ⟨before, after, hline.text_eq, rfl, rfl⟩
  refine hslice.trans (congrArg Except.ok ?_)
  rw [Text.lineText, hspan]
  exact (Text.slice_eq_between after hline.text_eq rfl rfl).symm

theorem mapM_eq_ok {α β : Type} {list : List α} {f : α → Except Fault β} {g : α → β}
    (h : ∀ x ∈ list, f x = .ok (g x)) : list.mapM f = .ok (list.map g) := by
  induction list with
  | nil => rfl
  | cons first rest ih =>
      obtain ⟨hfirst, hrest⟩ := List.forall_mem_cons.mp h
      rw [List.mapM_cons, hfirst, ok_bind, ih hrest, ok_bind]
      rfl

/-- A line that is reported has a mention of the owner. -/
theorem exists_mem_mentions_of_mem {line : Nat}
    (hmem : line ∈ ((extractor.leftOut source).map source.lineAt).eraseReps) :
    ∃ offset ∈ extractor.pattern.mentions source, source.lineAt offset = line := by
  rw [eraseReps_eq_dedup (Extractor.pairwise_lineAt_leftOut _ _), List.mem_dedup] at hmem
  obtain ⟨offset, hoffset, hline⟩ := List.mem_map.mp hmem
  exact ⟨offset, (Extractor.mem_leftOut_iff.mp hoffset).1, hline⟩

theorem unrecognizedLines_eq_ok (extractor : Extractor) (source : Text) :
    unrecognizedLines extractor source (extractor.candidates source) =
      .ok (extractor.unrecognizedLines source (extractor.candidates source)) := by
  have hrows : ∀ line ∈ ((extractor.leftOut source).map source.lineAt).eraseReps,
      (lineText source line).map (line, ·) = .ok (line, source.lineText line) := by
    intro line hmem
    obtain ⟨offset, hmention, rfl⟩ := exists_mem_mentions_of_mem hmem
    obtain ⟨front, back, htext, hoffset⟩ :=
      Signature.Pattern.exists_append_of_mem_mentionsFrom hmention
    have hlength : offset ≤ source.byteLength := by
      rw [htext, Text.byteLength_append]
      omega
    rw [lineText_lineAt hlength]
    rfl
  have hmap := mapM_eq_ok hrows
  rw [unrecognizedLines]
  simp only [Extractor.leftOut] at hmap
  rw [hmap]
  rfl

end Lines

section Gaps

variable {start stop : Nat}

theorem le_byteLength_of_firstCode? {text : Text} {offset : Nat}
    (h : Lexical.firstCode? text = some offset) : offset ≤ text.byteLength := by
  rcases Lexical.isOnlyFiller_or_codeBeginsAt text with hfiller | ⟨place, hcode⟩
  · rw [hfiller.firstCode?_eq_none] at h
    cases h
  · obtain rfl := Option.some.inj (hcode.firstCode?_eq_some.symm.trans h)
    obtain ⟨front, behind, rfl, rfl, -⟩ := hcode
    rw [Text.byteLength_append]
    exact Nat.le_add_right _ _

theorem readGap_eq_ok (hstart : source.IsCut start) (hstop : source.IsCut stop)
    (h : start ≤ stop) (carries : Bool) :
    readGap source start stop carries = .ok (Gap.read source start stop carries) := by
  have hslice := slice_of_isCut hstart hstop h
  obtain ⟨before, after, hsource, hbefore, hsegment⟩ := slice_eq_ok_iff.mp hslice
  rw [readGap, hslice, ok_bind, firstCode?_eq_ok, ok_bind, Gap.read]
  cases hcode : Lexical.firstCode? (source.slice start stop) with
  | none => rfl
  | some offset =>
      have hlength : start + offset ≤ source.byteLength := by
        have hwithin := le_byteLength_of_firstCode? hcode
        have htext := congrArg Text.byteLength hsource
        rw [Text.byteLength_append, Text.byteLength_append] at htext
        omega
      simp only [lineText_lineAt hlength, ok_bind]
      rfl

theorem isCut_of_standsIn {definition : Definition} (h : definition.StandsIn source) :
    source.IsCut definition.start ∧ source.IsCut definition.stop := by
  obtain ⟨before, after, hsource, hstart, -⟩ := h
  refine ⟨⟨before, _, hsource, hstart⟩, before ++ (definition.head ++ definition.body), after, ?_,
    Definition.byteLength_through hstart⟩
  simp only [hsource, List.append_assoc]

theorem isCut_byteLength (source : Text) : source.IsCut source.byteLength :=
  ⟨source, [], (List.append_nil source).symm, rfl⟩

/-- The gaps lie between definitions that stand in the source one behind the other. -/
theorem gaps_eq_ok {definitions : List Definition}
    (h : Definition.LaidOut source stop definitions) :
    gaps source definitions = .ok (Gap.list source definitions) := by
  fun_induction gaps source definitions generalizing stop with
  | case1 => rfl
  | case2 last =>
      obtain ⟨-, hstands, -⟩ := h
      obtain ⟨-, hstop⟩ := isCut_of_standsIn hstands
      have hle : last.stop ≤ source.byteLength := by
        obtain ⟨before, after, hsource, hbefore⟩ := hstop
        rw [← hbefore, hsource, Text.byteLength_append]
        exact Nat.le_add_right _ _
      rw [readGap_eq_ok hstop (isCut_byteLength source) hle]
      rfl
  | case3 definition next rest ih =>
      obtain ⟨-, hstands, hnext⟩ := h
      obtain ⟨-, hstop⟩ := isCut_of_standsIn hstands
      obtain ⟨hle, hstandsNext, -⟩ := id hnext
      obtain ⟨hstart, -⟩ := isCut_of_standsIn hstandsNext
      rw [readGap_eq_ok hstop hstart hle, ok_bind, ih hnext]
      rfl

/-- The text in front of the first definition is cut out of the source. -/
theorem lead_eq_ok {extraction : Extraction}
    (h : Definition.LaidOut source 0 extraction.definitions) :
    lead source extraction =
      .ok (source.takeBytes (extraction.leadLength source.byteLength)) := by
  have hcut : source.IsCut (extraction.leadLength source.byteLength) := by
    unfold Extraction.leadLength
    cases hdefinitions : extraction.definitions with
    | nil => exact isCut_byteLength source
    | cons first rest =>
        rw [hdefinitions] at h
        exact (isCut_of_standsIn h.2.1).1
  obtain ⟨before, after, hsource, hbefore⟩ := hcut
  rw [lead, ← hbefore, hsource, Text.takeBytes_append]
  exact slice_eq_ok_iff.mpr ⟨[], after, rfl, rfl, rfl⟩

end Gaps

/-- Where the definitions of a source are extracted, and where the text around them is looked at, no
check fails. -/
structure KeepsBounds (extractor : Extractor) (source : Text) : Prop where
  /-- Each slice is cut in order and between two characters of the source, each line has its number,
  and no more blocks are closed than are open. -/
  extraction : extract extractor source = .ok (extractor.extract source)
  gaps : gaps source (extractor.extract source).definitions =
    .ok (Gap.list source (extractor.extract source).definitions)
  lead : lead source (extractor.extract source) =
    .ok (source.takeBytes ((extractor.extract source).leadLength source.byteLength))

/-- No check fails, whatever the source, the owner, the layout of signatures and the way to scan. -/
theorem keepsBounds (extractor : Extractor) (source : Text) : KeepsBounds extractor source where
  extraction := by
    have hcandidates : candidatesFrom extractor source none (extractor.pattern.signatures source) =
        .ok (extractor.candidates source) :=
      candidatesFrom_eq_ok (fun _ => Signature.Pattern.standsIn_of_mem_signatures) nofun
    rw [extract, hcandidates, ok_bind, unrecognizedLines_eq_ok, ok_bind]
    rfl
  gaps := gaps_eq_ok (extractor.laidOut_definitions source)
  lead := lead_eq_ok (extractor.laidOut_definitions source)

end MemberSplit.Checked
