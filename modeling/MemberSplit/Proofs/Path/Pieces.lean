import Mathlib.Data.List.TakeWhile
import MemberSplit.Destination.FileName
import MemberSplit.Proofs.Text.Words

/-!
# The pieces of a path

A path is its pieces with slashes between them, and any pieces without slashes are those of a path.
So a tidy path is told by its names: the pieces that mean something.
-/

namespace MemberSplit

theorem Text.joinWith_prefix (gap : Text) (front back : List Text) :
    Text.joinWith gap front <+: Text.joinWith gap (front ++ back) := by
  unfold Text.joinWith
  induction front with
  | nil => exact List.nil_prefix
  | cons first rest ih =>
      cases rest with
      | nil => cases back <;> simp
      | cons next others =>
          simp only [List.cons_append, List.intercalate_cons_cons] at ih ⊢
          exact (List.prefix_append_right_inj _).mpr ih

namespace Path

theorem pieces_eq_splitOn (path : Path) : path.pieces = path.splitOn '/' :=
  Text.splitBy_eq_splitOnP _ path

theorem joinWith_pieces (path : Path) : Text.joinWith ['/'] path.pieces = path := by
  rw [pieces_eq_splitOn]
  exact List.intercalate_splitOn '/'

theorem pieces_joinWith {pieces : List Text} (hne : pieces ≠ [])
    (h : ∀ piece ∈ pieces, '/' ∉ piece) : Path.pieces (Text.joinWith ['/'] pieces) = pieces := by
  rw [pieces_eq_splitOn]
  exact List.splitOn_intercalate '/' h hne

theorem pieces_append_slash (first second : Path) :
    pieces (first ++ '/' :: second) = first.pieces ++ second.pieces := by
  simp only [pieces_eq_splitOn]
  exact List.splitOn_append_cons_self first second

theorem pieces_ne_nil (path : Path) : path.pieces ≠ [] := by
  rw [pieces_eq_splitOn]
  exact List.splitOn_ne_nil '/' path

theorem slash_not_mem_of_mem_pieces {path : Path} {piece : Text} (h : piece ∈ path.pieces) :
    '/' ∉ piece := by
  induction path generalizing piece with
  | nil => simp_all [pieces, Text.splitBy]
  | cons c rest ih =>
      change piece ∈ if c == '/' then [] :: pieces rest else Text.consPiece c (pieces rest) at h
      split at h
      next =>
        rcases List.mem_cons.mp h with rfl | hrest
        · simp
        · exact ih hrest
      next hother =>
        cases hpieces : pieces rest with
        | nil => exact absurd hpieces (pieces_ne_nil rest)
        | cons first others =>
            rw [hpieces] at h ih
            rcases List.mem_cons.mp h with rfl | hothers
            · have hne : c ≠ '/' := by simpa using hother
              simp [Ne.symm hne, ih List.mem_cons_self]
            · exact ih (List.mem_cons_of_mem _ hothers)

/-- The pieces that mean something. -/
def names (path : Path) : List Text :=
  path.pieces.filter fun piece => !isFiller piece

theorem names_tidy (path : Path) : (FileNaming.tidy path).names = path.names := by
  unfold FileNaming.tidy
  by_cases hnone : path.names = []
  · have hfilter : (path.pieces.filter fun piece => !isFiller piece) = [] := hnone
    rw [hfilter, hnone]
    rfl
  · have hslash : ∀ piece ∈ path.names, '/' ∉ piece := fun piece hmem =>
      slash_not_mem_of_mem_pieces (List.mem_filter.mp hmem).1
    change (Path.pieces (Text.joinWith ['/'] path.names)).filter _ = path.names
    rw [pieces_joinWith hnone hslash, names, List.filter_filter]
    simp only [Bool.and_self]

/-- Tidying up a path for the second time does nothing. -/
theorem tidy_tidy (path : Path) :
    FileNaming.tidy (FileNaming.tidy path) = FileNaming.tidy path :=
  congrArg (Text.joinWith ['/']) (names_tidy path)

/-- The paths of all groups are tidy. -/
theorem tidy_path (namer : FileNaming) (group : Group) :
    FileNaming.tidy (namer.path group) = namer.path group := by
  cases group <;> exact tidy_tidy _

theorem eq_of_names_eq {first second : Path} (hfirst : FileNaming.tidy first = first)
    (hsecond : FileNaming.tidy second = second) (h : first.names = second.names) :
    first = second := by
  rw [← hfirst, ← hsecond]
  exact congrArg (Text.joinWith ['/']) h

theorem isAbsolute_tidy (path : Path) : (FileNaming.tidy path).isAbsolute = false := by
  cases hnames : path.names with
  | nil =>
      have htidy : FileNaming.tidy path = [] := congrArg (Text.joinWith ['/']) hnames
      rw [htidy]
      rfl
  | cons first rest =>
      -- The first piece means something and so begins with a character that is no slash.
      have htidy : FileNaming.tidy path = Text.joinWith ['/'] (first :: rest) :=
        congrArg (Text.joinWith ['/']) hnames
      have hmem : first ∈ path.names := by simp [hnames]
      obtain ⟨hpiece, hfull⟩ := List.mem_filter.mp hmem
      have hslash := slash_not_mem_of_mem_pieces hpiece
      cases first with
      | nil => simp [isFiller] at hfull
      | cons c others =>
          have hne : c ≠ '/' := fun heq => hslash (heq ▸ List.mem_cons_self)
          rw [htidy]
          cases rest <;> simp [Text.joinWith, isAbsolute, hne]

/-- Two dots among the names make a component of their own. -/
theorem dots_not_mem_names {path : Path} (h : Component.parent ∉ path.components) :
    (".." : Text) ∉ path.names := by
  intro hmem
  apply h
  obtain ⟨hpiece, hfull⟩ := List.mem_filter.mp hmem
  have hdots : component ".." = .parent := rfl
  unfold components
  split
  next hnone => exact absurd hnone path.pieces_ne_nil
  next first rest hpieces =>
    rw [hpieces] at hpiece
    apply List.mem_append.mpr
    rcases List.mem_cons.mp hpiece with rfl | hrest
    · exact .inl (List.mem_singleton.mpr hdots.symm)
    · refine .inr (List.mem_map.mpr ⟨_, List.mem_filter.mpr ⟨hrest, hfull⟩, hdots⟩)

theorem exists_dropFillers (pieces : List Text) :
    ∃ fillers, pieces = dropFillers pieces ++ fillers ∧
      ∀ piece ∈ fillers, isFiller piece = true := by
  refine ⟨(pieces.reverse.takeWhile isFiller).reverse, ?_, ?_⟩
  · rw [dropFillers, ← List.reverse_append, List.takeWhile_append_dropWhile, List.reverse_reverse]
  · intro piece hmem
    exact List.mem_takeWhile_imp (List.mem_reverse.mp hmem)

/-- A path begins with a slash exactly if its first piece is empty and another one follows. -/
theorem isAbsolute_eq {path : Path} {first : Text} {rest : List Text}
    (hpieces : path.pieces = first :: rest) :
    path.isAbsolute = (first.isEmpty && !rest.isEmpty) := by
  have hmem : first ∈ path.pieces := by simp [hpieces]
  have hslash := slash_not_mem_of_mem_pieces hmem
  rw [← joinWith_pieces path, hpieces]
  cases first with
  | nil => cases rest <;> simp [Text.joinWith, isAbsolute]
  | cons c others =>
      have hne : c ≠ '/' := fun heq => hslash (heq ▸ List.mem_cons_self)
      cases rest <;> simp [Text.joinWith, isAbsolute, hne]

/-- The parent of a path is its front, up to some piece, unless it is the root or the path is a
single name. -/
theorem exists_front_of_parent? {path parent : Path} (h : path.parent? = some parent) :
    (parent = [] ∧ path ≠ [] ∧ path.isAbsolute = false) ∨ parent = ("/" : Text) ∨
      parent ≠ [] ∧ ∃ front back, path.pieces = front ++ back ∧ back ≠ [] ∧
        parent = Text.joinWith ['/'] front := by
  obtain ⟨⟨before, last⟩, hsplit, hparent⟩ := Option.map_eq_some_iff.mp h
  unfold splitLast? at hsplit
  split at hsplit
  next => simp at hsplit
  next first rest hpieces =>
    obtain ⟨fillers, hrest, -⟩ := exists_dropFillers rest
    split at hsplit
    next name others hreversed =>
      obtain ⟨rfl, rfl⟩ := Prod.mk.inj (Option.some.inj hsplit)
      simp only at hparent
      split at hparent
      next => exact .inr (.inl hparent.symm)
      next hfull =>
        obtain ⟨fillers', hothers, -⟩ := exists_dropFillers others.reverse
        have hnamed : dropFillers rest = others.reverse ++ [name] := by
          rw [← List.reverse_reverse (dropFillers rest), hreversed, List.reverse_cons]
        refine .inr (.inr ⟨?_, first :: dropFillers others.reverse,
          fillers' ++ name :: fillers, ?_, by simp, hparent.symm⟩)
        · rw [← hparent]
          cases hkept : dropFillers others.reverse with
          | nil => simpa [Text.joinWith, hkept] using hfull
          | cons next more => simp [Text.joinWith, List.intercalate_cons_cons]
        rw [hpieces, hrest, hnamed, List.cons_append, ← List.append_assoc _ fillers', ← hothers]
        simp
    next hnone =>
      split at hsplit
      next => simp at hsplit
      next hfirst =>
        obtain ⟨rfl, rfl⟩ := Prod.mk.inj (Option.some.inj hsplit)
        refine .inl ⟨hparent.symm, ?_, ?_⟩
        · rintro rfl
          simp [pieces, Text.splitBy] at hpieces
          exact hfirst (by simp [hpieces])
        · rw [isAbsolute_eq hpieces]
          simp [hfirst]

/-- Only the empty path and the paths of the root have no parent. -/
theorem isFiller_of_parent?_eq_none {path : Path} (h : path.parent? = none) (hne : path ≠ []) :
    path.isAbsolute = true ∧ ∀ piece ∈ path.pieces, isFiller piece = true := by
  have hsplit := Option.map_eq_none_iff.mp h
  unfold splitLast? at hsplit
  split at hsplit
  next hnone => exact absurd hnone path.pieces_ne_nil
  next first rest hpieces =>
    split at hsplit
    next => simp at hsplit
    next hnone =>
      split at hsplit
      next hfirst =>
        obtain rfl : first = [] := by simpa using hfirst
        obtain ⟨fillers, hrest, hfillers⟩ := exists_dropFillers rest
        rw [List.reverse_eq_nil_iff.mp hnone, List.nil_append] at hrest
        have hmore : rest ≠ [] := by
          rintro rfl
          apply hne
          rw [← joinWith_pieces path, hpieces]
          rfl
        refine ⟨by simp [isAbsolute_eq hpieces, hmore], ?_⟩
        rw [hpieces, hrest]
        intro piece hmem
        rcases List.mem_cons.mp hmem with rfl | hmem
        · rfl
        · exact hfillers piece hmem
      next => simp at hsplit

end Path

end MemberSplit
