import MemberSplit.Text.Basic

/-!
# Sets of names

A set of names is listed in ascending order of code points and holds each name once. Main
statement: a name is in the set with `name` inserted exactly if it is `name` or was in the set.
-/

namespace MemberSplit

/-- Whether a name is listed before another one: where they first differ, it has the smaller code
point or has ended. -/
def listedBefore : Text → Text → Bool
  | _, [] => false
  | [], _ :: _ => true
  | c :: name, d :: other => c.toNat < d.toNat || c = d && listedBefore name other

theorem listedBefore_trans {first second third : Text} (hfirst : listedBefore first second)
    (hsecond : listedBefore second third) : listedBefore first third := by
  induction first generalizing second third with
  | nil =>
    cases third with
    | nil => simp [listedBefore] at hsecond
    | cons e third => rfl
  | cons c first ih =>
    cases second with
    | nil => simp [listedBefore] at hfirst
    | cons d second =>
      cases third with
      | nil => simp [listedBefore] at hsecond
      | cons e third =>
        simp only [listedBefore, Bool.or_eq_true, Bool.and_eq_true, decide_eq_true_eq] at *
        rcases hfirst with hcd | ⟨rfl, hrest⟩
        · rcases hsecond with hde | ⟨rfl, _⟩
          · exact .inl (Nat.lt_trans hcd hde)
          · exact .inl hcd
        · rcases hsecond with hce | ⟨rfl, hother⟩
          · exact .inl hce
          · exact .inr ⟨rfl, ih hrest hother⟩

/-- Of two different names one is listed before the other. -/
theorem listedBefore_of_ne {name other : Text} (hne : name ≠ other)
    (hnot : listedBefore name other = false) : listedBefore other name := by
  induction name generalizing other with
  | nil =>
    cases other with
    | nil => exact absurd rfl hne
    | cons d other => simp [listedBefore] at hnot
  | cons c name ih =>
    cases other with
    | nil => rfl
    | cons d other =>
      simp only [listedBefore, Bool.or_eq_false_iff, decide_eq_false_iff_not] at hnot
      simp only [listedBefore, Bool.or_eq_true, Bool.and_eq_true, decide_eq_true_eq]
      by_cases hcd : c = d
      · subst hcd
        have hrest : name ≠ other := fun h => hne (h ▸ rfl)
        exact .inr ⟨rfl, ih hrest (by simpa using hnot.2)⟩
      · have hcode : c.toNat ≠ d.toNat := fun h => hcd (Char.toNat_inj.mp h)
        exact .inl (by omega)

/-- Puts a name at its place in an ascending list, unless it is there. -/
def insertAscending (name : Text) : List Text → List Text
  | [] => [name]
  | other :: rest =>
    if name = other then other :: rest
    else if listedBefore name other then name :: other :: rest
    else other :: insertAscending name rest

theorem mem_insertAscending {name other : Text} {names : List Text} :
    other ∈ insertAscending name names ↔ other = name ∨ other ∈ names := by
  induction names with
  | nil => simp [insertAscending]
  | cons first rest ih =>
    simp only [insertAscending]
    split
    · simp_all
    · split <;> simp_all
      grind

theorem pairwise_insertAscending {name : Text} {names : List Text}
    (h : names.Pairwise fun name other => listedBefore name other) :
    (insertAscending name names).Pairwise fun name other => listedBefore name other := by
  induction names with
  | nil => simp [insertAscending]
  | cons first rest ih =>
    obtain ⟨hfirst, hrest⟩ := List.pairwise_cons.mp h
    simp only [insertAscending]
    split
    · exact h
    · split
      next hbefore =>
        refine List.pairwise_cons.mpr ⟨fun other hother => ?_, h⟩
        rcases List.mem_cons.mp hother with rfl | hother
        · exact hbefore
        · exact listedBefore_trans hbefore (hfirst other hother)
      next hne hbefore =>
        refine List.pairwise_cons.mpr ⟨fun other hother => ?_, ih hrest⟩
        rcases mem_insertAscending.mp hother with rfl | hother
        · exact listedBefore_of_ne hne (Bool.not_eq_true _ ▸ hbefore)
        · exact hfirst other hother

/-- A set of names. -/
structure NameSet where
  /-- The names in ascending order. -/
  toList : List Text
  ascending : toList.Pairwise fun name other => listedBefore name other := by simp
  deriving DecidableEq

namespace NameSet

/-- The set without names. -/
def empty : NameSet where
  toList := []

/-- The set with one more name. -/
def insert (names : NameSet) (name : Text) : NameSet where
  toList := insertAscending name names.toList
  ascending := pairwise_insertAscending names.ascending

/-- The set with more names. -/
def insertAll (names : NameSet) (more : List Text) : NameSet :=
  more.foldl insert names

/-- The set of the names in a list. -/
def ofList (names : List Text) : NameSet :=
  empty.insertAll names

/-- Whether the name is in the set. -/
def contains (names : NameSet) (name : Text) : Bool :=
  names.toList.contains name

/-- Number of names. -/
def size (names : NameSet) : Nat :=
  names.toList.length

instance : Membership Text NameSet where
  mem names name := name ∈ names.toList

theorem mem_insert {names : NameSet} {name other : Text} :
    other ∈ names.insert name ↔ other = name ∨ other ∈ names :=
  mem_insertAscending

theorem mem_insertAll {names : NameSet} {more : List Text} {name : Text} :
    name ∈ names.insertAll more ↔ name ∈ names ∨ name ∈ more := by
  induction more generalizing names with
  | nil => simp [insertAll]
  | cons other others ih =>
      have hfirst : names.insertAll (other :: others) = (names.insert other).insertAll others := rfl
      rw [hfirst, ih, mem_insert, List.mem_cons, or_comm (a := name = other), or_assoc]

theorem mem_ofList {names : List Text} {name : Text} : name ∈ ofList names ↔ name ∈ names := by
  have hempty : name ∉ empty := List.not_mem_nil
  rw [ofList, mem_insertAll, or_iff_right hempty]

theorem contains_iff_mem {names : NameSet} {name : Text} :
    names.contains name ↔ name ∈ names :=
  List.contains_iff_mem

end NameSet

end MemberSplit
