import Mathlib.Data.List.Basic
import Mathlib.Tactic.Ring
import MemberSplit.Text.Basic

/-!
# Texts with places

A template is a text in which some places are filled in, all with the same text. What was filled in
can be read off the result, if there is a place at all; and filling in another kind of place
afterwards leaves these places as they are.
-/

namespace MemberSplit.Text

/-- A text with places, each of which is a `none`. -/
abbrev Form := List (Option Char)

/-- The text that a form becomes when its places are filled in. -/
def fill (substitute : Text) (form : Form) : Text :=
  form.flatMap fun part => part.elim substitute fun c => [c]

/-- Whether the text is a word in braces, as the name of a place is. -/
def IsPlaceName (name : Text) : Prop :=
  ∃ inner, name = '{' :: (inner ++ ['}']) ∧ '{' ∉ inner ∧ '}' ∉ inner

variable {part name other substitute first second : Text} {form : Form}

@[simp] theorem fill_nil (substitute : Text) : fill substitute [] = [] := rfl

@[simp] theorem fill_none (substitute : Text) (form : Form) :
    fill substitute (none :: form) = substitute ++ fill substitute form := rfl

@[simp] theorem fill_some (substitute : Text) (c : Char) (form : Form) :
    fill substitute (some c :: form) = c :: fill substitute form := rfl

theorem fill_append (substitute : Text) (front back : Form) :
    fill substitute (front ++ back) = fill substitute front ++ fill substitute back :=
  List.flatMap_append

@[simp] theorem fill_map_some (substitute text : Text) :
    fill substitute (text.map some) = text := by
  induction text with
  | nil => rfl
  | cons c rest ih => rw [List.map_cons, fill_some, ih]

/-- Only the places make a difference. -/
theorem fill_congr (h : none ∉ form) (first second : Text) :
    fill first form = fill second form := by
  induction form with
  | nil => rfl
  | cons head rest ih =>
      obtain ⟨hhead, hrest⟩ := not_or.mp fun hmem => h (List.mem_cons.mpr hmem)
      cases head with
      | none => exact absurd rfl hhead
      | some c => rw [fill_some, fill_some, ih hrest]

theorem length_fill (substitute : Text) (form : Form) :
    (fill substitute form).length =
      form.countP Option.isSome + form.count none * substitute.length := by
  induction form with
  | nil => simp
  | cons head rest ih =>
      cases head with
      | none =>
          rw [fill_none, List.length_append, ih, List.count_cons_self,
            List.countP_cons_of_neg (by simp)]
          ring
      | some c =>
          rw [fill_some, List.length_cons, ih, List.countP_cons_of_pos rfl,
            List.count_cons_of_ne (by simp)]
          ring

theorem length_fill_lt (hplace : none ∈ form) (h : first.length < second.length) :
    (fill first form).length < (fill second form).length := by
  have hcount : 0 < form.count none := List.count_pos_iff.mpr hplace
  have hmul := Nat.mul_lt_mul_of_pos_left h hcount
  rw [length_fill, length_fill]
  omega

/-- Forms with a place are filled with different texts in different ways. -/
theorem fill_injective (hplace : none ∈ form) (h : fill first form = fill second form) :
    first = second := by
  have hlength : first.length = second.length := by
    have hfilled := congrArg List.length h
    rcases Nat.lt_trichotomy first.length second.length with hlt | heq | hlt
    · exact absurd hfilled (Nat.ne_of_lt (length_fill_lt hplace hlt))
    · exact heq
    · exact absurd hfilled (Nat.ne_of_gt (length_fill_lt hplace hlt))
  induction form with
  | nil => cases hplace
  | cons head rest ih =>
      cases head with
      | none => exact (List.append_inj h hlength).1
      | some c =>
          have hrest : none ∈ rest := by simpa using hplace
          exact ih hrest (List.cons.inj h).2

/-! ### Places by name -/

/-- The form with each occurrence of `name` replaced, where `pending` parts belong to an occurrence
that has been replaced. -/
def replacePlacesFrom (name : Text) (substitute : Form) : (pending : Nat) → Form → Form
  | _, [] => []
  | pending + 1, _ :: rest => replacePlacesFrom name substitute pending rest
  | 0, head :: rest =>
    if (name.map some).isPrefixOf (head :: rest) then
      substitute ++ replacePlacesFrom name substitute (name.length - 1) rest
    else head :: replacePlacesFrom name substitute 0 rest

/-- The form with each occurrence of a nonempty `name` replaced. -/
def replacePlaces (form : Form) (name : Text) (substitute : Form) : Form :=
  replacePlacesFrom name substitute 0 form

/-- The form of a text in which the occurrences of `name` are the places. -/
def withPlaces (text name : Text) : Form :=
  replacePlaces (text.map some) name [none]

theorem isPrefixOf_map_some (name text : Text) :
    (name.map some).isPrefixOf (text.map some) = name.isPrefixOf text := by
  induction name generalizing text with
  | nil => simp
  | cons c rest ih =>
      cases text with
      | nil => rfl
      | cons d others => simp [List.isPrefixOf, ih]

theorem contains_iff_isInfix {text : Text} : contains text part = true ↔ part <:+: text := by
  induction text with
  | nil => simp [contains]
  | cons c rest ih =>
      rw [contains, Bool.or_eq_true, ih, List.infix_cons_iff, List.isPrefixOf_iff_prefix]

theorem replaceFrom_eq_fill (part substitute : Text) (pending : Nat) (text : Text) :
    replaceFrom part substitute pending text =
      fill substitute (replacePlacesFrom part [none] pending (text.map some)) := by
  induction text generalizing pending with
  | nil => cases pending <;> rfl
  | cons c rest ih =>
      cases pending with
      | succ pending => exact ih pending
      | zero =>
          unfold replaceFrom
          rw [List.map_cons, replacePlacesFrom, ← List.map_cons, isPrefixOf_map_some]
          split
          next => rw [ih, List.singleton_append, fill_none]
          next => rw [ih, fill_some]

/-- To replace the occurrences of a text is to fill in the places that it names. -/
theorem replace_eq_fill (text part substitute : Text) :
    replace text part substitute = fill substitute (withPlaces text part) :=
  replaceFrom_eq_fill part substitute 0 text

/-! ### Places beside others -/

/-- Whether no place stands behind a brace that has not been closed, where `inside` says whether
such a brace stands in front of the form. -/
def placesAreFree : (inside : Bool) → Form → Bool
  | _, [] => true
  | inside, none :: rest => !inside && placesAreFree inside rest
  | inside, some c :: rest =>
    placesAreFree (if c = '{' then true else if c = '}' then false else inside) rest

theorem ends_isPrefixOf_of_free {inner : Text} (hopen : '{' ∉ inner) (hclose : '}' ∉ inner)
    (hfree : placesAreFree true form = true)
    (h : (inner ++ ['}']).isPrefixOf (fill substitute form) = true) :
    ((inner ++ ['}']).map some).isPrefixOf form = true := by
  induction inner generalizing form with
  | nil =>
      cases form with
      | nil => simp at h
      | cons head rest =>
          cases head with
          | none => simp [placesAreFree] at hfree
          | some c => simpa using h
  | cons d others ih =>
      obtain ⟨hd, hothers⟩ := not_or.mp fun hmem => hopen (List.mem_cons.mpr hmem)
      obtain ⟨hd', hothers'⟩ := not_or.mp fun hmem => hclose (List.mem_cons.mpr hmem)
      cases form with
      | nil => simp at h
      | cons head rest =>
          cases head with
          | none => simp [placesAreFree] at hfree
          | some c =>
              simp only [fill_some, List.cons_append, List.isPrefixOf, Bool.and_eq_true,
                beq_iff_eq] at h
              obtain ⟨rfl, hrest⟩ := h
              rw [placesAreFree, if_neg (Ne.symm hd), if_neg (Ne.symm hd')] at hfree
              simpa [List.isPrefixOf] using ih hothers hothers' hfree hrest

/-- The name of a place that is found in a filled form was there before. -/
theorem isPrefixOf_of_fill (hname : IsPlaceName name) {c : Char} {inside : Bool}
    (hfree : placesAreFree inside (some c :: form) = true) :
    (name.map some).isPrefixOf (some c :: form) = name.isPrefixOf (c :: fill substitute form) := by
  obtain ⟨inner, rfl, hopen, hclose⟩ := hname
  rw [Bool.eq_iff_iff]
  constructor
  · intro h
    obtain ⟨rest, hrest⟩ := List.isPrefixOf_iff_prefix.mp h
    have hfilled := congrArg (fill substitute) hrest
    rw [fill_append, fill_map_some, fill_some] at hfilled
    exact List.isPrefixOf_iff_prefix.mpr ⟨_, hfilled⟩
  · intro h
    simp only [List.isPrefixOf, Bool.and_eq_true, beq_iff_eq] at h
    obtain ⟨rfl, hrest⟩ := h
    have hinside : placesAreFree true form = true := hfree
    simpa [List.isPrefixOf] using ends_isPrefixOf_of_free hopen hclose hinside hrest

theorem replaceFrom_append_of_not_mem (hname : IsPlaceName name) (hfirst : '{' ∉ first)
    (rest : Text) :
    replaceFrom name substitute 0 (first ++ rest) =
      first ++ replaceFrom name substitute 0 rest := by
  obtain ⟨inner, rfl, -, -⟩ := hname
  induction first with
  | nil => rfl
  | cons c others ih =>
      obtain ⟨hc, hothers⟩ := not_or.mp fun hmem => hfirst (List.mem_cons.mpr hmem)
      rw [List.cons_append, replaceFrom, if_neg (by simp [hc]), ih hothers, List.cons_append]

theorem not_mem_take_of_isPrefix {α : Type} {a c : α} {found rest : List α}
    (hfound : a ∉ found.tail) (h : found <+: c :: rest) : a ∉ rest.take (found.length - 1) := by
  obtain ⟨behind, hbehind⟩ := h
  cases found with
  | nil => simp
  | cons d others =>
      have hrest : others ++ behind = rest := (List.cons.inj hbehind).2
      rw [← hrest, List.length_cons, Nat.add_sub_cancel, List.take_left]
      exact hfound

theorem IsPlaceName.not_mem_tail (hname : IsPlaceName name) : '{' ∉ name.tail := by
  obtain ⟨inner, rfl, hopen, -⟩ := hname
  simpa using hopen

theorem none_not_mem_take_of_isPrefixOf {c : Char}
    (h : (name.map some).isPrefixOf (some c :: form) = true) :
    none ∉ form.take (name.length - 1) := by
  have htail : none ∉ (name.map some).tail := fun hmem => by
    simpa using List.mem_of_mem_tail hmem
  have htake := not_mem_take_of_isPrefix htail (List.isPrefixOf_iff_prefix.mp h)
  rwa [List.length_map] at htake

/-- Places that are free stay as they are when places of another name are filled in. -/
theorem replaceFrom_fill (hname : IsPlaceName name) (hfirst : '{' ∉ first) {inside : Bool}
    (hfree : placesAreFree inside form = true) {pending : Nat}
    (hpending : none ∉ form.take pending) :
    replaceFrom name substitute pending (fill first form) =
      fill first (replacePlacesFrom name (substitute.map some) pending form) := by
  induction form generalizing inside pending with
  | nil => cases pending <;> rfl
  | cons head rest ih =>
      cases head with
      | none =>
          obtain rfl : pending = 0 := by
            cases pending with
            | zero => rfl
            | succ pending => simp at hpending
          have hhead : (name.map some).isPrefixOf (none :: rest) = false := by
            obtain ⟨inner, rfl, -, -⟩ := hname
            rfl
          rw [fill_none, replaceFrom_append_of_not_mem hname hfirst, replacePlacesFrom, hhead,
            ih (Bool.and_eq_true_iff.mp hfree).2 (by simp)]
          rfl
      | some c =>
          have hrest := hfree
          rw [placesAreFree] at hrest
          cases pending with
          | succ pending => exact ih hrest (by simpa using hpending)
          | zero =>
              rw [fill_some, replaceFrom, replacePlacesFrom, ← isPrefixOf_of_fill hname hfree]
              split
              next hprefix =>
                rw [ih hrest (none_not_mem_take_of_isPrefixOf hprefix), fill_append,
                  fill_map_some]
              next => rw [ih hrest (by simp), fill_some]

theorem mem_replacePlacesFrom (hname : IsPlaceName name) {inserted : Form} {pending : Nat}
    (hpending : none ∉ form.take pending) (hplace : none ∈ form) :
    none ∈ replacePlacesFrom name inserted pending form := by
  induction form generalizing pending with
  | nil => cases hplace
  | cons head rest ih =>
      cases pending with
      | succ pending =>
          obtain ⟨hhead, hrest⟩ := not_or.mp fun hmem =>
            hpending (List.take_succ_cons ▸ List.mem_cons.mpr hmem)
          exact ih hrest ((List.mem_cons.mp hplace).resolve_left hhead)
      | zero =>
          unfold replacePlacesFrom
          split
          next hprefix =>
            cases head with
            | none =>
                obtain ⟨inner, rfl, -, -⟩ := hname
                simp at hprefix
            | some c =>
                exact List.mem_append_right _
                  (ih (none_not_mem_take_of_isPrefixOf hprefix) (by simpa using hplace))
          next =>
            rcases List.mem_cons.mp hplace with rfl | hrest
            · exact List.mem_cons_self
            · exact List.mem_cons_of_mem _ (ih (by simp) hrest)

/-- A text that contains a name has a place. -/
theorem mem_withPlaces {text : Text} (h : contains text name = true) (hne : name ≠ []) :
    none ∈ withPlaces text name := by
  induction text with
  | nil => exact absurd (List.isEmpty_iff.mp h) hne
  | cons c rest ih =>
      rw [withPlaces, replacePlaces, List.map_cons, replacePlacesFrom, ← List.map_cons,
        isPrefixOf_map_some]
      split
      next => simp
      next hprefix =>
        have hrest : contains rest name = true := by simpa [contains, hprefix] using h
        exact List.mem_cons_of_mem _ (ih hrest)

theorem IsPlaceName.eq_of_isPrefix {text : Text} (hname : IsPlaceName name)
    (hother : IsPlaceName other) (h : name <+: text) (h' : other <+: text) : name = other := by
  obtain ⟨inner, rfl, -, hclose⟩ := hname
  obtain ⟨inner', rfl, -, hclose'⟩ := hother
  obtain ⟨behind, rfl⟩ := h
  obtain ⟨behind', heq⟩ := h'
  simp only [List.cons_append, List.append_assoc, List.nil_append, List.cons.injEq,
    true_and] at heq
  -- The first closing brace ends both names.
  rcases List.append_eq_append_iff.mp heq with ⟨more, hmore, hrest⟩ | ⟨more, hmore, hrest⟩
  · cases more with
    | nil => simp [hmore]
    | cons c others =>
        obtain rfl : '}' = c := (List.cons.inj hrest).1
        exact absurd (hmore ▸ by simp) hclose
  · cases more with
    | nil => simp [hmore]
    | cons c others =>
        obtain rfl : '}' = c := (List.cons.inj hrest).1
        exact absurd (hmore ▸ by simp) hclose'

/-- The characters that belong to an occurrence are passed over. -/
theorem replaceFrom_append (first : Text) (rest : Text) :
    replaceFrom name substitute first.length (first ++ rest) =
      replaceFrom name substitute 0 rest := by
  induction first with
  | nil => rfl
  | cons c others ih => exact ih

/-- An occurrence at the start of a text is replaced. -/
theorem replaceFrom_name_append (hname : IsPlaceName name) (rest : Text) :
    replaceFrom name substitute 0 (name ++ rest) =
      substitute ++ replaceFrom name substitute 0 rest := by
  obtain ⟨inner, rfl, -, -⟩ := hname
  have hprefix : ('{' :: (inner ++ ['}'])).isPrefixOf ('{' :: (inner ++ ['}'] ++ rest)) = true :=
    List.isPrefixOf_iff_prefix.mpr (List.prefix_append ('{' :: (inner ++ ['}'])) rest)
  rw [List.cons_append, replaceFrom, if_pos hprefix]
  exact congrArg (substitute ++ ·) (replaceFrom_append (inner ++ ['}']) rest)

/-- The name of another place at the start of a text stays. -/
theorem replaceFrom_other_append {other : Text} (hname : IsPlaceName name)
    (hother : IsPlaceName other) (hne : name ≠ other) (rest : Text) :
    replaceFrom name substitute 0 (other ++ rest) =
      other ++ replaceFrom name substitute 0 rest := by
  have hprefix : ¬name.isPrefixOf (other ++ rest) = true := fun h =>
    hne (hname.eq_of_isPrefix hother (List.isPrefixOf_iff_prefix.mp h) (List.prefix_append _ _))
  obtain ⟨inner, rfl, hopen, -⟩ := hother
  rw [List.cons_append] at hprefix ⊢
  rw [replaceFrom, if_neg hprefix,
    replaceFrom_append_of_not_mem hname (by simpa using hopen) rest, List.cons_append]

/-- Filling in one kind of place keeps the others. -/
theorem contains_replaceFrom (hname : IsPlaceName name) (hother : IsPlaceName other)
    (hne : name ≠ other) {pending : Nat} {text : Text} (hpending : '{' ∉ text.take pending)
    (h : contains text other = true) :
    contains (replaceFrom name substitute pending text) other = true := by
  simp only [contains_iff_isInfix] at h ⊢
  induction text generalizing pending with
  | nil =>
      obtain ⟨inner, rfl, -, -⟩ := hother
      simp at h
  | cons c rest ih =>
      cases pending with
      | succ pending =>
          obtain ⟨hc, hrest⟩ := not_or.mp fun hmem =>
            hpending (List.take_succ_cons ▸ List.mem_cons.mpr hmem)
          refine ih hrest ((List.infix_cons_iff.mp h).resolve_left ?_)
          obtain ⟨inner, rfl, -, -⟩ := hother
          rintro ⟨behind, hbehind⟩
          exact hc (List.cons.inj hbehind).1
      | zero =>
          unfold replaceFrom
          split
          next hprefix =>
            have hhere := List.isPrefixOf_iff_prefix.mp hprefix
            have hrest := (List.infix_cons_iff.mp h).resolve_left fun hfront =>
              hne (hname.eq_of_isPrefix hother hhere hfront)
            exact (ih (not_mem_take_of_isPrefix hname.not_mem_tail hhere) hrest).trans
              (List.suffix_append _ _).isInfix
          next =>
            rcases List.infix_cons_iff.mp h with hfront | hrest
            · obtain ⟨inner, rfl, hopen, -⟩ := hother
              obtain ⟨behind, hbehind⟩ := hfront
              obtain ⟨rfl, hrest⟩ := List.cons.inj hbehind
              have hkept : replaceFrom name substitute 0 rest =
                  (inner ++ ['}']) ++ replaceFrom name substitute 0 behind := by
                rw [← hrest]
                exact replaceFrom_append_of_not_mem hname (by simpa using hopen) behind
              rw [hkept]
              exact (List.prefix_append ('{' :: (inner ++ ['}'])) _).isInfix
            · exact (ih (by simp) hrest).trans (List.suffix_cons c _).isInfix

theorem contains_replace (hname : IsPlaceName name) (hother : IsPlaceName other)
    (hne : name ≠ other) {text : Text} (h : contains text other = true) (substitute : Text) :
    contains (replace text name substitute) other = true :=
  contains_replaceFrom hname hother hne (by simp) h

end MemberSplit.Text
