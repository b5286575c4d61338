import MemberSplit.Destination.BytePath
import MemberSplit.Proofs.Destination.Resolving
import MemberSplit.Proofs.Path.Filling
import MemberSplit.Proofs.Text.Decoding

/-!
# References in directories of any bytes

A path of bytes is cut where the text is cut that it reads as, and where a text is cut whose bytes
it has. So with texts for paths nothing changes, and with any others a reference goes through the
components of its file as they show in a text. It leads to the file exactly if the output directory
is UTF-8.
-/

namespace MemberSplit

namespace Text

/-- Every character of the text is one byte. -/
def IsAscii (text : Text) : Prop :=
  ∀ c ∈ text, c.toNat < 0x80

instance (text : Text) : Decidable text.IsAscii :=
  List.decidableBAll (fun c : Char => c.toNat < 0x80) text

end Text

namespace Path

section Bytes

variable {bytes : Bytes}

@[simp] theorem toBytes_ofBytes (bytes : Bytes) : toBytes (ofBytes bytes) = bytes := by
  have hbyte : ∀ byte : UInt8, UInt8.ofNat (Char.ofNat byte.toNat).toNat = byte := by
    intro byte
    have hlt := byte.toNat_lt
    rw [Utf8.toNat_ofNat_char (.inl (by omega)), UInt8.ofNat_toNat]
  rw [toBytes, ofBytes, List.map_map]
  exact (List.map_congr_left fun byte _ => hbyte byte).trans (List.map_id bytes)

theorem ofBytes_inj {first second : Bytes} : ofBytes first = ofBytes second ↔ first = second := by
  refine ⟨fun h => ?_, congrArg ofBytes⟩
  rw [← toBytes_ofBytes first, h, toBytes_ofBytes]

theorem ofText_inj {first second : Path} : ofText first = ofText second ↔ first = second := by
  refine ⟨fun h => ?_, congrArg ofText⟩
  exact Utf8.encode_injective (ofBytes_inj.mp h)

@[simp] theorem shown_ofBytes (bytes : Bytes) : shown (ofBytes bytes) = Utf8.decodeLossy bytes := by
  rw [shown, toBytes_ofBytes]

@[simp] theorem shown_ofText (path : Path) : shown (ofText path) = path := by
  rw [ofText, shown_ofBytes, Utf8.decodeLossy_encode]

theorem map_rename_shown_ofText (components : List Component) :
    (components.map (Component.rename ofText)).map (Component.rename shown) = components := by
  rw [List.map_map]
  refine (List.map_congr_left fun component _ => ?_).trans (List.map_id components)
  cases component <;> simp [Component.rename]

theorem ofText_append (first second : Path) :
    ofText (first ++ second) = ofText first ++ ofText second := by
  rw [ofText, Utf8.encode_append, ofBytes, List.map_append]
  rfl

/-- Text of ASCII is the path of its bytes. -/
theorem ofText_of_ascii {text : Text} (h : text.IsAscii) : ofText text = text := by
  induction text with
  | nil => rfl
  | cons c rest ih =>
      obtain ⟨hc, hrest⟩ := List.forall_mem_cons.mp h
      rw [← List.singleton_append, ofText_append, ih hrest]
      have hbytes : Utf8.encode [c] = [UInt8.ofNat c.toNat] := by
        rw [Utf8.encode_cons, (Utf8.encodeChar_of_lt hc).1]
        rfl
      rw [ofText, hbytes, ofBytes, List.map_singleton, Utf8.toNat_ofNat (by omega),
        Char.ofNat_toNat]

theorem ofText_eq_iff {path : Path} {text : Text} (h : text.IsAscii) :
    ofText path = text ↔ path = text := by
  conv_lhs => rw [← ofText_of_ascii h]
  exact ofText_inj

/-- Bytes read as a text of ASCII only if they are the text. -/
theorem decodeLossy_eq_iff {text : Text} (h : text.IsAscii) :
    Utf8.decodeLossy bytes = text ↔ ofBytes bytes = text := by
  constructor
  · intro htext
    have hreplaced : '\uFFFD' ∉ Utf8.decodeLossy bytes := by
      intro hmem
      exact absurd (h _ (htext ▸ hmem)) (by decide)
    rw [← Utf8.encode_decodeLossy_of_not_mem hreplaced, htext]
    exact ofText_of_ascii h
  · intro hpath
    rw [← ofText_of_ascii h, ofText, ofBytes_inj] at hpath
    rw [hpath, Utf8.decodeLossy_encode]

end Bytes

section Pieces

theorem slash_mem_ofBytes_iff {bytes : Bytes} : '/' ∈ ofBytes bytes ↔ 0x2F ∈ bytes := by
  refine ⟨fun h => ?_, fun h => List.mem_map.mpr ⟨0x2F, h, rfl⟩⟩
  obtain ⟨byte, hmem, hbyte⟩ := List.mem_map.mp h
  have hcode := congrArg Char.toNat hbyte
  have hlt := byte.toNat_lt
  rw [Utf8.toNat_ofNat_char (.inl (by omega))] at hcode
  obtain rfl : byte = 0x2F := UInt8.toNat_inj.mp hcode
  exact hmem

/-- The pieces of a path of bytes stand between the bytes that are slashes. -/
theorem pieces_ofBytes (bytes : Bytes) :
    (ofBytes bytes).pieces = (bytes.splitOn 0x2F).map ofBytes := by
  have hspell : ofBytes = fun bytes : Bytes => bytes.flatMap fun byte => ofBytes [byte] := by
    funext bytes
    exact List.map_eq_flatMap
  rw [hspell]
  refine pieces_flatMap _ 0x2F rfl fun byte _ hbyte hslash => ?_
  exact hbyte (List.mem_singleton.mp (slash_mem_ofBytes_iff.mp hslash)).symm

theorem slash_not_mem_of_mem_splitOn {bytes piece : Bytes} (h : piece ∈ bytes.splitOn 0x2F) :
    0x2F ∉ piece := by
  have hpiece : ofBytes piece ∈ (ofBytes bytes).pieces := by
    rw [pieces_ofBytes]
    exact List.mem_map_of_mem h
  exact fun hslash => slash_not_mem_of_mem_pieces hpiece (slash_mem_ofBytes_iff.mpr hslash)

/-- Bytes read as a path with as many pieces, each of which reads as it does alone. -/
theorem pieces_decodeLossy (bytes : Bytes) :
    pieces (Utf8.decodeLossy bytes) = (bytes.splitOn 0x2F).map Utf8.decodeLossy := by
  have hslash : ∀ piece ∈ bytes.splitOn 0x2F, '/' ∉ Utf8.decodeLossy piece := fun piece hmem h =>
    slash_not_mem_of_mem_splitOn hmem (Utf8.mem_of_mem_decodeLossy (by decide) h)
  have hjoined : [0x2F].intercalate (bytes.splitOn 0x2F) = bytes := List.intercalate_splitOn 0x2F
  have hne : bytes.splitOn 0x2F ≠ [] := List.splitOn_ne_nil 0x2F bytes
  generalize bytes.splitOn 0x2F = parts at hslash hjoined hne ⊢
  subst hjoined
  induction parts with
  | nil => exact absurd rfl hne
  | cons first rest ih =>
      obtain ⟨hfirst, hrest⟩ := List.forall_mem_cons.mp hslash
      have halone : pieces (Utf8.decodeLossy first) = [Utf8.decodeLossy first] := by
        rw [← List.append_nil (Utf8.decodeLossy first), pieces_append_of_not_mem hfirst]
        rfl
      cases rest with
      | nil => simpa using halone
      | cons next others =>
          have hmore := ih hrest (by simp)
          rw [List.intercalate_cons_cons, List.append_assoc, List.singleton_append,
            Utf8.decodeLossy_append_cons _ _ (by decide)]
          refine (pieces_append_slash _ _).trans ?_
          rw [hmore, halone]
          rfl

theorem slash_not_mem_encodeChar {c : Char} (h : c ≠ '/') : 0x2F ∉ Utf8.encodeChar c := by
  intro hmem
  rcases Nat.lt_or_ge c.toNat 0x80 with hascii | hother
  · rw [(Utf8.encodeChar_of_lt hascii).1, List.mem_singleton] at hmem
    have hcode := congrArg UInt8.toNat hmem
    rw [Utf8.toNat_ofNat (by omega)] at hcode
    exact h (Char.toNat_inj.mp hcode.symm)
  · exact absurd (Utf8.le_of_mem_encodeChar hother hmem) (by decide)

theorem pieces_ofText (path : Path) : (ofText path).pieces = path.pieces.map ofText := by
  have hspell : ofText = fun path : Path => path.flatMap fun c => ofBytes (Utf8.encodeChar c) := by
    funext path
    rw [ofText, ofBytes, Utf8.encode, List.map_flatMap]
    rfl
  rw [pieces_eq_splitOn path, hspell]
  refine pieces_flatMap _ '/' rfl fun c _ hc hslash => ?_
  exact slash_not_mem_encodeChar hc (slash_mem_ofBytes_iff.mp hslash)

end Pieces

theorem isEmpty_of_pieces {path : Path} {first : Text} {rest : List Text}
    (hpieces : path.pieces = first :: rest) :
    path.isEmpty = (first.isEmpty && rest.isEmpty) := by
  rw [← joinWith_pieces path, hpieces]
  cases first <;> cases rest <;> simp [Text.joinWith]

/-- The other path has the pieces of the path in another spelling that keeps what is ASCII. -/
structure Respelled (spell : Text → Text) (path other : Path) : Prop where
  pieces_eq : other.pieces = path.pieces.map spell
  keeps : ∀ piece ∈ path.pieces, ∀ mark : Text, mark.IsAscii → (spell piece = mark ↔ piece = mark)

theorem respelled_decodeLossy (bytes : Bytes) :
    Respelled shown (ofBytes bytes) (Utf8.decodeLossy bytes) where
  pieces_eq := by
    rw [pieces_decodeLossy, pieces_ofBytes, List.map_map]
    exact List.map_congr_left fun piece _ => (shown_ofBytes piece).symm
  keeps := by
    intro piece hmem mark hmark
    rw [pieces_ofBytes] at hmem
    obtain ⟨part, -, rfl⟩ := List.mem_map.mp hmem
    rw [shown_ofBytes]
    exact decodeLossy_eq_iff hmark

theorem respelled_ofText (path : Path) : Respelled ofText path (ofText path) where
  pieces_eq := pieces_ofText path
  keeps _ _ _ hmark := ofText_eq_iff hmark

namespace Respelled

variable {spell : Text → Text} {path other : Path} {piece : Text}

theorem isEmpty_spell (h : Respelled spell path other) (hmem : piece ∈ path.pieces) :
    (spell piece).isEmpty = piece.isEmpty := by
  have hempty := h.keeps piece hmem [] (by decide)
  exact Bool.eq_iff_iff.mpr (by simpa using hempty)

theorem isFiller_spell (h : Respelled spell path other) (hmem : piece ∈ path.pieces) :
    isFiller (spell piece) = isFiller piece := by
  have hdot := h.keeps piece hmem "." (by decide)
  rw [isFiller, isFiller, h.isEmpty_spell hmem, decide_eq_decide.mpr hdot]

theorem component_spell (h : Respelled spell path other) (hmem : piece ∈ path.pieces) :
    component (spell piece) = (component piece).rename spell := by
  have hdot := h.keeps piece hmem "." (by decide)
  have hdots := h.keeps piece hmem ".." (by decide)
  unfold component
  rw [if_congr hdot rfl rfl, if_congr hdots rfl rfl]
  split
  next => rfl
  next => split <;> rfl

theorem exists_pieces_eq (h : Respelled spell path other) : ∃ first rest,
    path.pieces = first :: rest ∧ other.pieces = spell first :: rest.map spell := by
  obtain ⟨first, rest, hpieces⟩ := List.exists_cons_of_ne_nil path.pieces_ne_nil
  exact ⟨first, rest, hpieces, by rw [h.pieces_eq, hpieces, List.map_cons]⟩

theorem isAbsolute_eq (h : Respelled spell path other) : other.isAbsolute = path.isAbsolute := by
  obtain ⟨first, rest, hpieces, hother⟩ := h.exists_pieces_eq
  rw [Path.isAbsolute_eq hpieces, Path.isAbsolute_eq hother,
    h.isEmpty_spell (by simp [hpieces]), List.isEmpty_map]

theorem isEmpty_eq (h : Respelled spell path other) : other.isEmpty = path.isEmpty := by
  obtain ⟨first, rest, hpieces, hother⟩ := h.exists_pieces_eq
  rw [isEmpty_of_pieces hpieces, isEmpty_of_pieces hother,
    h.isEmpty_spell (by simp [hpieces]), List.isEmpty_map]

/-- The components are those of the path, under the names in that spelling. -/
theorem components_eq (h : Respelled spell path other) :
    other.components = path.components.map (Component.rename spell) := by
  obtain ⟨first, rest, hpieces, hother⟩ := h.exists_pieces_eq
  have hfirst : first ∈ path.pieces := by simp [hpieces]
  have hrest : ∀ piece ∈ rest, piece ∈ path.pieces := fun piece hmem => by simp [hpieces, hmem]
  have hkept : (rest.map spell).filter (fun piece => !isFiller piece) =
      (rest.filter fun piece => !isFiller piece).map spell := by
    rw [List.filter_map]
    refine congrArg _ (List.filter_congr fun piece hmem => ?_)
    simp [h.isFiller_spell (hrest piece hmem)]
  have hnamed : ((rest.filter fun piece => !isFiller piece).map spell).map component =
      ((rest.filter fun piece => !isFiller piece).map component).map
        (Component.rename spell) := by
    rw [List.map_map, List.map_map]
    exact List.map_congr_left fun piece hmem =>
      h.component_spell (hrest piece (List.mem_filter.mp hmem).1)
  unfold components
  rw [hpieces, hother]
  simp only
  rw [h.isEmpty_spell hfirst, h.isEmpty_eq, hkept, hnamed, List.map_append,
    h.component_spell hfirst]
  congr 1
  split
  next => rfl
  next => split <;> rfl

theorem steps_eq (h : Respelled spell path other) :
    other.steps = path.steps.map (Component.rename spell) := by
  rw [steps, steps, h.components_eq, List.filter_map]
  refine congrArg _ (List.filter_congr fun part _ => ?_)
  cases part <;> rfl

end Respelled

section Text

theorem isAbsolute_ofText (path : Path) : (ofText path).isAbsolute = path.isAbsolute :=
  (respelled_ofText path).isAbsolute_eq

theorem isEmpty_ofText (path : Path) : (ofText path).isEmpty = path.isEmpty :=
  (respelled_ofText path).isEmpty_eq

theorem joinWith_ofText (parts : List Text) :
    Text.joinWith ['/'] (parts.map ofText) = ofText (Text.joinWith ['/'] parts) := by
  induction parts with
  | nil => rfl
  | cons first rest ih =>
      cases rest with
      | nil => simp [Text.joinWith]
      | cons next others =>
          simp only [Text.joinWith, List.map_cons, List.intercalate_cons_cons] at ih ⊢
          rw [ih, ofText_append, ofText_append]
          rfl

theorem dropFillers_ofText (parts : List Text) :
    dropFillers (parts.map ofText) = (dropFillers parts).map ofText := by
  have hfiller : isFiller ∘ ofText = isFiller := by
    funext part
    have hdot : ofText part = "." ↔ part = "." := ofText_eq_iff (by decide)
    rw [Function.comp_apply, isFiller, isFiller, isEmpty_ofText, decide_eq_decide.mpr hdot]
  rw [dropFillers, dropFillers, ← List.map_reverse, List.dropWhile_map, hfiller, List.map_reverse]

theorem splitLast?_ofText (path : Path) : splitLast? (ofText path) =
    (splitLast? path).map fun (before, last) => (before.map ofText, ofText last) := by
  unfold splitLast?
  rw [pieces_ofText]
  cases path.pieces with
  | nil => rfl
  | cons first rest =>
      simp only [List.map_cons, dropFillers_ofText, ← List.map_reverse]
      cases (dropFillers rest).reverse with
      | nil =>
          simp only [List.map_nil, isEmpty_ofText]
          split <;> rfl
      | cons last before => simp

theorem parent?_ofText (path : Path) : (ofText path).parent? = path.parent?.map ofText := by
  unfold parent?
  rw [splitLast?_ofText, Option.map_map, Option.map_map]
  refine Option.map_congr fun cut _ => ?_
  obtain ⟨before, last⟩ := cut
  cases before with
  | nil => rfl
  | cons first rest =>
      simp only [Function.comp_apply, List.map_cons, isEmpty_ofText, dropFillers_ofText,
        List.isEmpty_map]
      split
      next => rfl
      next => exact joinWith_ofText (first :: dropFillers rest)

theorem getLast?_ofText (path : Path) :
    (ofText path).getLast? = some '/' ↔ path.getLast? = some '/' := by
  rcases List.eq_nil_or_concat path with rfl | ⟨front, c, rfl⟩
  · rfl
  · have hne : ofText [c] ≠ [] := List.isEmpty_eq_false_iff.mp (isEmpty_ofText [c])
    rw [List.concat_eq_append, ofText_append, List.getLast?_append_of_ne_nil _ hne,
      List.getLast?_concat]
    constructor
    · intro h
      by_contra hc
      have hslash : '/' ∈ ofBytes (Utf8.encodeChar c ++ []) := List.mem_of_getLast? h
      rw [List.append_nil, slash_mem_ofBytes_iff] at hslash
      exact slash_not_mem_encodeChar (fun heq => hc (congrArg some heq)) hslash
    · intro h
      rw [Option.some.inj h]
      rfl

theorem join_ofText (base path : Path) :
    (ofText base).join (ofText path) = ofText (base.join path) := by
  have hslash : ((ofText base).isEmpty || (ofText base).getLast? = some '/') =
      (base.isEmpty || base.getLast? = some '/') := by
    rw [isEmpty_ofText, decide_eq_decide.mpr (getLast?_ofText base)]
  unfold join
  rw [isAbsolute_ofText, hslash]
  split
  next => rfl
  next =>
    split
    next => exact (ofText_append base path).symm
    next =>
      rw [ofText_append, ← List.singleton_append (l := path), ofText_append ['/'] path]
      rfl

end Text

end Path

namespace Location

theorem shownPart?_eq (component : Path.Component) :
    shownPart? component = referencePart? (component.rename Path.shown) := by
  cases component <;> rfl

/-- A reference shows the paths as they read as texts. -/
theorem shownPathFromInput_ofBytes (directory path : Bytes) :
    shownPathFromInput (.ofBytes directory) (.ofBytes path) =
      pathFromInput (Utf8.decodeLossy directory) (Utf8.decodeLossy path) := by
  have hparts : shownPart? = referencePart? ∘ Path.Component.rename Path.shown :=
    funext shownPart?_eq
  rw [shownPathFromInput, pathFromInput, (Path.respelled_decodeLossy directory).components_eq,
    (Path.respelled_decodeLossy path).components_eq, ← List.map_append, List.filterMap_map, hparts]

theorem shownPathFromInput_ofText (directory path : Path) :
    shownPathFromInput (.ofText directory) (.ofText path) = pathFromInput directory path := by
  rw [Path.ofText, Path.ofText, shownPathFromInput_ofBytes, Utf8.decodeLossy_encode,
    Utf8.decodeLossy_encode]

/-- With paths that are texts, files are seen from the same directory. -/
theorem outputBase_ofText (input directory : Path) :
    outputBase (.ofText input) (.ofText directory) = .ofText (outputBase input directory) := by
  unfold outputBase
  rw [Path.isAbsolute_ofText, Path.parent?_ofText]
  split
  next => rfl
  next =>
    cases input.parent? with
    | none => rfl
    | some parent => exact Path.join_ofText parent directory

/-- A reference in a directory of bytes is one in the directory that the bytes read as. -/
theorem shownReference_ofBytes (template : Text) (directory : Bytes) (path : Path) :
    shownReference template (.ofBytes directory) (.ofText path) =
      reference template (Utf8.decodeLossy directory) path := by
  rw [shownReference, Path.ofText, shownPathFromInput_ofBytes, Utf8.decodeLossy_encode]
  rfl

theorem ofText_shown_of_steps {directory : Bytes}
    (h : (Path.steps (Utf8.decodeLossy directory)).map (Path.Component.rename Path.ofText) =
      (Path.ofBytes directory).steps)
    {piece : Text} (hmem : piece ∈ (Path.ofBytes directory).pieces) :
    Path.ofText (Path.shown piece) = piece := by
  have hspelled := Path.respelled_decodeLossy directory
  by_cases hascii : Text.IsAscii piece
  · rw [(hspelled.keeps piece hmem piece hascii).mpr rfl, Path.ofText_of_ascii hascii]
  · -- What has a meaning of its own is ASCII, so this piece is a name.
    have hmark : ∀ mark : Text, mark.IsAscii → piece ≠ mark :=
      fun mark hmark heq => hascii (heq ▸ hmark)
    have hfull : Path.isFiller piece = false :=
      Bool.or_eq_false_iff.mpr ⟨List.isEmpty_eq_false_iff.mpr (hmark [] (by decide)),
        decide_eq_false (hmark "." (by decide))⟩
    have hname : Path.component piece = .name piece := by
      rw [Path.component, if_neg (hmark "." (by decide)), if_neg (hmark ".." (by decide))]
    have hstep : Path.Component.name piece ∈ (Path.ofBytes directory).steps := by
      rw [Path.steps_eq, ← hname]
      exact List.mem_append_right _
        (List.mem_map_of_mem (List.mem_filter.mpr ⟨hmem, by simp [hfull]⟩))
    rw [hspelled.steps_eq, List.map_map] at h
    have hsame := List.map_eq_map_iff.mp (h.trans (List.map_id _).symm) _ hstep
    exact Path.Component.name.inj hsame

/-- The names of a directory can be written again from how they show exactly if it is UTF-8. -/
theorem map_rename_steps_iff {directory : Bytes} :
    (Path.steps (Utf8.decodeLossy directory)).map (Path.Component.rename Path.ofText) =
      (Path.ofBytes directory).steps ↔ Utf8.isValid directory = true := by
  rw [Utf8.isValid_iff, ← Path.ofBytes_inj]
  constructor
  · intro h
    change Path.ofText (Utf8.decodeLossy directory) = Path.ofBytes directory
    rw [← Path.joinWith_pieces (Path.ofText _), Path.pieces_ofText,
      (Path.respelled_decodeLossy directory).pieces_eq, List.map_map]
    have hpieces : (Path.ofBytes directory).pieces.map (Path.ofText ∘ Path.shown) =
        (Path.ofBytes directory).pieces :=
      (List.map_congr_left fun piece hmem => ofText_shown_of_steps h hmem).trans (List.map_id _)
    rw [hpieces, Path.joinWith_pieces]
  · intro h
    rw [← (Path.respelled_ofText _).steps_eq]
    exact congrArg Path.steps h

/-- Where the path leads by which an input refers to a file, for an input and an output directory of
any bytes. -/
def referredPath (input directory : Bytes) (path : Path) : Path :=
  resolve (.ofBytes input) (.ofText (shownPathFromInput (.ofBytes directory) (.ofText path)))

/-- Where that file is. -/
def filePath (input directory : Bytes) (path : Path) : Path :=
  (outputBase (.ofBytes input) (.ofBytes directory)).join (.ofText path)

/-- With texts for the paths, a reference leads where the text of the reference leads. -/
theorem referredPath_encode (input directory path : Path) :
    referredPath (Utf8.encode input) (Utf8.encode directory) path =
      .ofText (resolve input (pathFromInput directory path)) := by
  change resolve (.ofText input) (.ofText (shownPathFromInput (.ofText directory) _)) = _
  rw [shownPathFromInput_ofText, ← outputBase_eq_resolve, outputBase_ofText, outputBase_eq_resolve]

theorem filePath_encode (input directory path : Path) :
    filePath (Utf8.encode input) (Utf8.encode directory) path =
      .ofText ((outputBase input directory).join path) := by
  change (outputBase (.ofText input) (.ofText directory)).join _ = _
  rw [outputBase_ofText, Path.join_ofText]

theorem isAbsolute_ofText_of_tidy {path : Path} (htidy : FileNaming.tidy path = path) :
    (Path.ofText path).isAbsolute = false := by
  rw [Path.isAbsolute_ofText]
  exact htidy ▸ Path.isAbsolute_tidy path

variable {path : Path}

/-- Whatever bytes the output directory is, the path by which the input refers to a file goes
through components that show as those of the file's path do. They are the same components, so that
the reference leads to the file, exactly if the output directory is UTF-8. -/
theorem steps_referredPath (input directory : Bytes) (htidy : FileNaming.tidy path = path)
    (hne : path ≠ []) :
    (referredPath input directory path).steps.map (Path.Component.rename Path.shown) =
        (filePath input directory path).steps.map (Path.Component.rename Path.shown) ∧
      ((referredPath input directory path).steps = (filePath input directory path).steps ↔
        Utf8.isValid directory = true) := by
  have hshown : shownPathFromInput (.ofBytes directory) (.ofText path) =
      pathFromInput (Utf8.decodeLossy directory) path := by
    rw [Path.ofText, shownPathFromInput_ofBytes, Utf8.decodeLossy_encode]
  have hrelative := isAbsolute_ofText_of_tidy htidy
  have hdirectory := Path.respelled_decodeLossy directory
  have habsolute : (Path.ofText (pathFromInput (Utf8.decodeLossy directory) path)).isAbsolute =
      (Path.ofBytes directory).isAbsolute := by
    rw [Path.isAbsolute_ofText, isAbsolute_pathFromInput _ htidy hne, hdirectory.isAbsolute_eq]
  obtain ⟨front, hreferred, hfile⟩ := exists_steps_resolve (.ofBytes input) hrelative habsolute
  rw [(Path.respelled_ofText _).steps_eq, steps_pathFromInput _ htidy hne, List.map_append,
    ← (Path.respelled_ofText path).steps_eq] at hreferred
  rw [referredPath, filePath, hshown, hreferred, hfile]
  refine ⟨?_, ?_⟩
  · simp only [List.map_append]
    rw [Path.map_rename_shown_ofText, hdirectory.steps_eq]
  · rw [List.append_right_inj, List.append_left_inj]
    exact map_rename_steps_iff

/-- A byte that begins no character shows as a replacement in the reference. -/
example : shownPathFromInput (.ofBytes [0x67, 0x65, 0x6E, 0xFF]) (.ofText "a.cpp") =
    "gen\uFFFD/a.cpp" := by decide

/-- Files are told apart by their references and by their places, in a directory of any bytes. -/
theorem eq_of_shownReference_eq {template : Text} {directory : Bytes} {first second : Path}
    (htemplate : Text.contains template Config.pathPlace = true)
    (hfirst : FileNaming.tidy first = first) (hsecond : FileNaming.tidy second = second)
    (h : shownReference template (.ofBytes directory) (.ofText first) =
      shownReference template (.ofBytes directory) (.ofText second)) : first = second := by
  rw [shownReference_ofBytes, shownReference_ofBytes] at h
  exact eq_of_reference_eq htemplate hfirst hsecond h

theorem eq_of_filePath_eq {input directory : Bytes} {first second : Path}
    (hfirst : FileNaming.tidy first = first) (hsecond : FileNaming.tidy second = second)
    (h : filePath input directory first = filePath input directory second) : first = second :=
  Path.ofText_inj.mp (Path.join_injective (isAbsolute_ofText_of_tidy hfirst)
    (isAbsolute_ofText_of_tidy hsecond) h)

end Location

end MemberSplit
