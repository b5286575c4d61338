import MemberSplit.Proofs.Json.Lexeme
import Mathlib.Data.List.TakeWhile

/-!
# Reading JSON

A reader for the values that a report is made of. Its recursion is bounded by a number that the
length of the text always reaches. Main statement: each value is read back from its text.
-/

namespace MemberSplit.Json

/-- Reads a key and the colon behind it. -/
def key? (text : Text) : Option (Text × Text) :=
  match skipSpace text with
  | '"' :: rest => do
    let (key, rest) ← string? rest
    match skipSpace rest with
    | ':' :: rest => some (key, rest)
    | _ => none
  | _ => none

mutual

/-- Reads a value, with space in front of it. -/
def value? : (bound : Nat) → Text → Option (Json × Text)
  | 0, _ => none
  | bound + 1, text =>
    match skipSpace text with
    | '[' :: inner =>
      match skipSpace inner with
      | ']' :: rest => some (.arr [], rest)
      | inner => do
        let (item, rest) ← value? bound inner
        let (items, rest) ← items? bound rest
        return (.arr (item :: items), rest)
    | '{' :: inner =>
      match skipSpace inner with
      | '}' :: rest => some (.obj [], rest)
      | inner => do
        let (key, rest) ← key? inner
        let (value, rest) ← value? bound rest
        let (members, rest) ← members? bound rest
        return (.obj ((key, value) :: members), rest)
    | text => scalar? text

/-- Reads the items of an array after its first, and the closing bracket. -/
def items? : (bound : Nat) → Text → Option (List Json × Text)
  | 0, _ => none
  | bound + 1, text =>
    match skipSpace text with
    | ']' :: rest => some ([], rest)
    | ',' :: rest => do
      let (item, rest) ← value? bound rest
      let (items, rest) ← items? bound rest
      return (item :: items, rest)
    | _ => none

/-- Reads the members of an object after its first, and the closing brace. -/
def members? : (bound : Nat) → Text → Option (List (Text × Json) × Text)
  | 0, _ => none
  | bound + 1, text =>
    match skipSpace text with
    | '}' :: rest => some ([], rest)
    | ',' :: rest => do
      let (key, rest) ← key? rest
      let (value, rest) ← value? bound rest
      let (members, rest) ← members? bound rest
      return ((key, value) :: members, rest)
    | _ => none

end

/-- The value that a whole text is the text of. -/
def ofText? (text : Text) : Option Json := do
  let (value, rest) ← value? text.length text
  if skipSpace rest = [] then some value else none

section RoundTrip

theorem skipSpace_newLine (indent : Nat) (text : Text) :
    skipSpace (newLine indent ++ text) = skipSpace text := by
  induction indent with
  | zero => rfl
  | succ indent ih => exact ih

theorem skipSpace_cons {c : Char} (rest : Text) (h : isSpace c = false) :
    skipSpace (c :: rest) = c :: rest :=
  List.dropWhile_cons_of_neg (by simp [h])

/-- A character that can begin the text of a value. -/
def beginsValue (c : Char) : Bool :=
  !isSpace c && c != ']' && c != '}'

theorem exists_render_eq_cons (indent : Nat) (value : Json) :
    ∃ c rest, value.render indent = c :: rest ∧ beginsValue c = true := by
  match value with
  | .null | .bool true | .bool false | .str text | .arr [] | .arr (_ :: _) | .obj []
  | .obj ((_, _) :: _) => exact ⟨_, _, rfl, by decide⟩
  | .num n =>
      obtain ⟨c, rest, htext, hbegins⟩ := exists_ofInt_eq_cons n
      refine ⟨c, rest, htext, ?_⟩
      simp [beginsValue, isSpace, ne_of_beginsNumber hbegins, beginsNumber]

theorem skipSpace_render (indent : Nat) (value : Json) (rest : Text) :
    skipSpace (value.render indent ++ rest) = value.render indent ++ rest := by
  obtain ⟨c, others, hrender, hbegins⟩ := exists_render_eq_cons indent value
  have hspace : isSpace c = false := by
    simp only [beginsValue, Bool.and_eq_true, Bool.not_eq_true'] at hbegins
    exact hbegins.1.1
  rw [hrender, List.cons_append, skipSpace_cons _ hspace]

/-- What stands behind the first item of an array, up to its end and further on. -/
def itemsText (indent outer : Nat) (items : List Json) (rest : Text) : Text :=
  renderItems indent items ++ (newLine outer ++ ']' :: rest)

/-- What stands behind the first member of an object, up to its end and further on. -/
def membersText (indent outer : Nat) (members : List (Text × Json)) (rest : Text) : Text :=
  renderMembers indent members ++ (newLine outer ++ '}' :: rest)

theorem itemsText_cons (indent outer : Nat) (item : Json) (items : List Json) (rest : Text) :
    itemsText indent outer (item :: items) rest =
      ',' :: (newLine indent ++ (item.render indent ++ itemsText indent outer items rest)) := by
  simp only [itemsText, renderItems, List.cons_append, List.append_assoc]

theorem membersText_cons (indent outer : Nat) (key : Text) (value : Json)
    (members : List (Text × Json)) (rest : Text) :
    membersText indent outer ((key, value) :: members) rest =
      ',' :: (newLine indent ++ (quote key ++ (": " ++ (value.render indent ++
        membersText indent outer members rest)))) := by
  simp only [membersText, renderMembers, List.cons_append, List.append_assoc]

theorem render_array (indent : Nat) (item : Json) (items : List Json) (rest : Text) :
    render indent (.arr (item :: items)) ++ rest =
      '[' :: (newLine (indent + 2) ++ (item.render (indent + 2) ++
        itemsText (indent + 2) indent items rest)) := by
  simp only [itemsText, render, List.cons_append, List.append_assoc, List.nil_append]

theorem render_object (indent : Nat) (key : Text) (value : Json) (members : List (Text × Json))
    (rest : Text) :
    render indent (.obj ((key, value) :: members)) ++ rest =
      '{' :: (newLine (indent + 2) ++ (quote key ++ (": " ++ (value.render (indent + 2) ++
        membersText (indent + 2) indent members rest)))) := by
  simp only [membersText, render, List.cons_append, List.append_assoc, List.nil_append]

theorem endsNumber_itemsText (indent outer : Nat) (items : List Json) (rest : Text) :
    EndsNumber (itemsText indent outer items rest) := by
  intro c hc
  match items with
  | [] => cases hc; rfl
  | _ :: _ => cases hc; rfl

theorem endsNumber_membersText (indent outer : Nat) (members : List (Text × Json))
    (rest : Text) : EndsNumber (membersText indent outer members rest) := by
  intro c hc
  match members with
  | [] => cases hc; rfl
  | (_, _) :: _ => cases hc; rfl

/-- A key is read with its colon. -/
theorem key?_quote {text key rest : Text} (htext : skipSpace text = quote key ++ (": " ++ rest)) :
    key? text = some (key, ' ' :: rest) := by
  have hread := string?_quote key (':' :: ' ' :: rest)
  have hquote : skipSpace text = '"' :: (key.flatMap escapeChar ++ '"' :: ':' :: ' ' :: rest) := by
    rw [htext, quote_append]
    rfl
  simp only [key?, hquote, hread]
  rfl

/-- What begins with no bracket and no brace has no values inside. -/
theorem value?_eq_scalar? (bound : Nat) {text others : Text} {c : Char}
    (htext : skipSpace text = c :: others) (harray : c ≠ '[') (hobject : c ≠ '{') :
    value? (bound + 1) text = scalar? (c :: others) := by
  rw [value?, htext]
  split
  next heq => exact absurd (List.cons.inj heq).1 harray
  next heq => exact absurd (List.cons.inj heq).1 hobject
  next => rfl

/-- Where the text of a value stands behind the opening bracket, it is the first item. -/
theorem value?_array (bound : Nat) {text rest : Text} {item : Json} {indent : Nat}
    (htext : skipSpace text = '[' :: (newLine indent ++ (item.render indent ++ rest))) :
    value? (bound + 1) text = (do
      let (item, rest) ← value? bound (item.render indent ++ rest)
      let (items, rest) ← items? bound rest
      return (.arr (item :: items), rest)) := by
  obtain ⟨c, others, hrender, hbegins⟩ := exists_render_eq_cons indent item
  rw [value?, htext]
  simp only [skipSpace_newLine, skipSpace_render]
  rw [hrender]
  split
  next heq =>
    obtain rfl := (List.cons.inj heq).1
    exact absurd hbegins (by decide)
  next => rfl

/-- Where a key stands behind the opening brace, it is that of the first member. -/
theorem value?_object (bound : Nat) {text key rest : Text} {indent : Nat}
    (htext : skipSpace text = '{' :: (newLine indent ++ (quote key ++ (": " ++ rest)))) :
    value? (bound + 1) text = (do
      let (value, rest) ← value? bound (' ' :: rest)
      let (members, rest) ← members? bound rest
      return (.obj ((key, value) :: members), rest)) := by
  have hspace : skipSpace (quote key ++ (": " ++ rest)) = quote key ++ (": " ++ rest) :=
    skipSpace_cons _ rfl
  have hkey := key?_quote hspace
  rw [value?, htext]
  simp only [skipSpace_newLine, hspace]
  rw [quote_append] at hkey ⊢
  split
  next heq => exact absurd (List.cons.inj heq).1 (by decide)
  next =>
    rw [hkey]
    rfl

-- The bound goes down by one from a value to what it holds, and so does the length of the text.
mutual

theorem value?_render (value : Json) {indent bound : Nat} {text rest : Text}
    (hbound : (value.render indent).length ≤ bound) (hrest : EndsNumber rest)
    (htext : skipSpace text = value.render indent ++ rest) :
    value? bound text = some (value, rest) := by
  match bound, value with
  | 0, value =>
      obtain ⟨c, others, hrender, -⟩ := exists_render_eq_cons indent value
      simp [hrender] at hbound
  | bound + 1, .null => rw [value?, htext]; rfl
  | bound + 1, .bool true => rw [value?, htext]; rfl
  | bound + 1, .bool false => rw [value?, htext]; rfl
  | bound + 1, .num n =>
      have hread := scalar?_ofInt n hrest
      obtain ⟨c, others, hnumber, hbegins⟩ := exists_ofInt_eq_cons n
      rw [render, hnumber] at htext
      rw [hnumber] at hread
      rwa [value?_eq_scalar? bound htext (ne_of_beginsNumber hbegins rfl)
        (ne_of_beginsNumber hbegins rfl)]
  | bound + 1, .str string =>
      have hread := string?_quote string rest
      rw [render, quote_append] at htext
      rw [value?_eq_scalar? bound htext (by decide) (by decide), scalar?, hread]
      rfl
  | bound + 1, .arr [] => rw [value?, htext]; rfl
  | bound + 1, .arr (item :: items) =>
      have hlength : (item.render (indent + 2)).length ≤ bound ∧
          (renderItems (indent + 2) items).length < bound := by
        simp only [render, List.length_append, List.length_cons, newLine] at hbound
        omega
      have hitem := value?_render item hlength.1
        (endsNumber_itemsText (indent + 2) indent items rest)
        (skipSpace_render (indent + 2) item _)
      have hitems := @items?_itemsText items (indent + 2) indent bound rest hlength.2
      rw [render_array] at htext
      simp only [value?_array bound htext, hitem, hitems, Option.bind_eq_bind, Option.bind_some]
      rfl
  | bound + 1, .obj [] => rw [value?, htext]; rfl
  | bound + 1, .obj ((key, value) :: members) =>
      have hlength : (value.render (indent + 2)).length ≤ bound ∧
          (renderMembers (indent + 2) members).length < bound := by
        simp only [render, List.length_append, List.length_cons, newLine] at hbound
        omega
      have hspace : skipSpace (' ' :: (value.render (indent + 2) ++
          membersText (indent + 2) indent members rest)) = _ :=
        skipSpace_render (indent + 2) value _
      have hvalue := value?_render value hlength.1
        (endsNumber_membersText (indent + 2) indent members rest) hspace
      have hmembers := @members?_membersText members (indent + 2) indent bound rest hlength.2
      rw [render_object] at htext
      simp only [value?_object bound htext, hvalue, hmembers, Option.bind_eq_bind,
        Option.bind_some]
      rfl

theorem items?_itemsText (items : List Json) {indent outer bound : Nat} {rest : Text}
    (hbound : (renderItems indent items).length < bound) :
    items? bound (itemsText indent outer items rest) = some (items, rest) := by
  match bound, items with
  | bound + 1, [] =>
      rw [items?, itemsText, renderItems, List.nil_append, skipSpace_newLine]
      rfl
  | bound + 1, item :: items =>
      have hlength : (item.render indent).length ≤ bound ∧
          (renderItems indent items).length < bound := by
        simp only [renderItems, List.length_append, List.length_cons, newLine] at hbound
        omega
      have hspace : skipSpace (newLine indent ++ (item.render indent ++
          itemsText indent outer items rest)) = _ :=
        (skipSpace_newLine indent _).trans (skipSpace_render indent item _)
      have hitem := value?_render item hlength.1 (endsNumber_itemsText indent outer items rest)
        hspace
      have hitems := @items?_itemsText items indent outer bound rest hlength.2
      rw [itemsText_cons, items?, skipSpace_cons _ (by rfl)]
      simp only [hitem, hitems, Option.bind_eq_bind, Option.bind_some]
      rfl

theorem members?_membersText (members : List (Text × Json)) {indent outer bound : Nat}
    {rest : Text} (hbound : (renderMembers indent members).length < bound) :
    members? bound (membersText indent outer members rest) = some (members, rest) := by
  match bound, members with
  | bound + 1, [] =>
      rw [members?, membersText, renderMembers, List.nil_append, skipSpace_newLine]
      rfl
  | bound + 1, (key, value) :: members =>
      have hlength : (value.render indent).length ≤ bound ∧
          (renderMembers indent members).length < bound := by
        simp only [renderMembers, List.length_append, List.length_cons, newLine] at hbound
        omega
      have hkeySpace : skipSpace (newLine indent ++ (quote key ++ (": " ++ (value.render indent ++
          membersText indent outer members rest)))) = _ :=
        (skipSpace_newLine indent _).trans (skipSpace_cons _ rfl)
      have hkey := key?_quote hkeySpace
      have hspace : skipSpace (' ' :: (value.render indent ++
          membersText indent outer members rest)) = _ :=
        skipSpace_render indent value _
      have hvalue := value?_render value hlength.1
        (endsNumber_membersText indent outer members rest) hspace
      have hmembers := @members?_membersText members indent outer bound rest hlength.2
      rw [membersText_cons, members?, skipSpace_cons _ (by rfl)]
      simp only [hkey, hvalue, hmembers, Option.bind_eq_bind, Option.bind_some]
      rfl

end

/-- Each value is read back from its text, with or without space behind it. -/
theorem ofText?_pretty (value : Json) {space : Text} (hspace : ∀ c ∈ space, isSpace c = true) :
    ofText? (value.pretty ++ space) = some value := by
  have hends : EndsNumber space := by
    intro c hc
    have hc := hspace c (List.mem_of_mem_head? hc)
    simp only [isSpace, Bool.or_eq_true, beq_iff_eq] at hc
    obtain ((rfl | rfl) | rfl) | rfl := hc <;> rfl
  have hlength : (value.render 0).length ≤ (value.pretty ++ space).length := by
    simp [pretty]
  have hskip : skipSpace space = [] := List.dropWhile_eq_nil_iff.mpr hspace
  have hread : value? (value.pretty ++ space).length (value.pretty ++ space) =
      some (value, space) :=
    value?_render value hlength hends (skipSpace_render 0 value space)
  simp only [ofText?, hread, Option.bind_eq_bind, Option.bind_some, hskip, if_true]

end RoundTrip

end MemberSplit.Json
