import MemberSplit.Text.Basic

/-!
# Values of TOML

The values of a settings document, and the tables that it is built up from. A table remembers how it
came to be, since that decides whether it may be added to.
-/

namespace MemberSplit.Toml

/-- A value of a settings document. -/
inductive Value where
  | text (text : Text)
  | truth (value : Bool)
  /-- A number, a date or a time, as it is spelled. -/
  | quantity (spelling : Text)
  | list (items : List Value)
  | table (entries : List (Text × Value))

/-- How a table came to be. -/
inductive Origin where
  /-- By a header of its own. -/
  | header
  /-- By the header of a table inside it. -/
  | implicit
  /-- By a key with dots. -/
  | dotted
  deriving DecidableEq, Repr

/-- What a key of a table under construction stands for. -/
inductive Node where
  | value (value : Value)
  | table (origin : Origin) (entries : List (Text × Node))
  /-- A list of tables, each with a header of its own; the last one is kept apart. -/
  | tables (before : List (List (Text × Node))) (last : List (Text × Node))

/-- A table under construction. -/
abbrev Entries := List (Text × Node)

namespace Entries

/-- The entries with what a key stands for put in, at the place of the key if it has one. -/
def set (entries : Entries) (key : Text) (node : Node) : Entries :=
  match entries with
  | [] => [(key, node)]
  | (other, old) :: rest =>
    if other = key then (key, node) :: rest else (other, old) :: set rest key node

/-- Puts in a value under a key with dots. A key can be given once, and dots do not reach into
tables that have a header. -/
def insert : (key : List Text) → Value → Entries → Option Entries
  | [], _, _ => none
  | [key], value, entries =>
    match entries.lookup key with
    | none => some (entries ++ [(key, .value value)])
    | some _ => none
  | key :: path, value, entries =>
    match entries.lookup key with
    | none => (insert path value []).map fun inner => entries ++ [(key, .table .dotted inner)]
    | some (.table .dotted inner) =>
      (insert path value inner).map fun inner => set entries key (.table .dotted inner)
    | some _ => none

/-- Changes the table at a path of keys; missing tables on the way are made. -/
def change (entries : Entries) (path : List Text) (edit : Entries → Option Entries) :
    Option Entries :=
  match path with
  | [] => edit entries
  | key :: path =>
    match entries.lookup key with
    | none => (change [] path edit).map fun inner => entries ++ [(key, .table .implicit inner)]
    | some (.table origin inner) =>
      (change inner path edit).map fun inner => set entries key (.table origin inner)
    | some (.tables before last) =>
      (change last path edit).map fun last => set entries key (.tables before last)
    | some (.value _) => none

/-- Begins the table with a header; a table has one header at most. -/
def beginTable (key : Text) (entries : Entries) : Option Entries :=
  match entries.lookup key with
  | none => some (entries ++ [(key, .table .header [])])
  | some (.table .implicit inner) => some (set entries key (.table .header inner))
  | some _ => none

/-- Begins the next table of a list of tables. -/
def beginItem (key : Text) (entries : Entries) : Option Entries :=
  match entries.lookup key with
  | none => some (entries ++ [(key, .tables [] [])])
  | some (.tables before last) => some (set entries key (.tables (before ++ [last]) []))
  | some _ => none

end Entries

mutual

/-- The value of a node whose table is complete. -/
def Node.toValue : Node → Value
  | .value value => value
  | .table _ entries => .table (entriesValue entries)
  | .tables before last => .list (tableValues before ++ [.table (entriesValue last)])

/-- The entries of a table that is complete. -/
def entriesValue : List (Text × Node) → List (Text × Value)
  | [] => []
  | (key, node) :: rest => (key, node.toValue) :: entriesValue rest

/-- The tables of a list that is complete. -/
def tableValues : List (List (Text × Node)) → List Value
  | [] => []
  | entries :: rest => .table (entriesValue entries) :: tableValues rest

end

end MemberSplit.Toml
