import LightShow.Toml.Value

/-
  Adding to TOML tables.

  No key is given a value twice. A header enters a table that
  no header entered before, though others may have led
  through it, and nothing is added to a table in braces.

  Key definitions include:
    * `LightShow.Toml.Key`
    * `LightShow.Toml.Table.put?`
    * `LightShow.Toml.Table.within?`
    * `LightShow.Toml.Table.enter?`
    * `LightShow.Toml.Table.append?`
-/

namespace LightShow

namespace Toml

/- A dotted key: the tables on the way and the last name. -/
structure Key where
  route : List String
  name : String
deriving DecidableEq, Repr

namespace Table

------------------------------------------------------------
-- Entries
------------------------------------------------------------

/- The value of a key. -/
def get? (t : Table) (key : String) : Option Value :=
  t.lookup key

/- Give a new key its value. -/
def add
    (t : Table)
    (key : String)
    (value : Value) : Table :=
  t ++ [(key, value)]

/- Replace the value of a key. -/
def replace
    (t : Table)
    (key : String)
    (value : Value) : Table :=
  t.map fun (k, v) => (k, if k = key then value else v)

/- Leave out a key. -/
def erase (t : Table) (key : String) : Table :=
  t.filter fun (k, _) => k ≠ key

/- The entries in the order of their keys. -/
def sorted (t : Table) : Table :=
  t.mergeSort fun a b => a.1 ≤ b.1

------------------------------------------------------------
-- Values By Keys
------------------------------------------------------------

/-
  Give a key a value. The first argument says whether the
  table may get values by keys: the table of the statement
  itself and tables made by dotted keys may, tables that a
  header led to may not.
-/
def put?
    (value : Value)
    (name : String) :
    Bool → List String → Table → Option Table
  | isOpen, [], t =>
      if isOpen ∧ (t.get? name).isNone then
        some (t.add name value)
      else none
  | _, step :: steps, t =>
      match t.get? step with
      | none =>
          (put? value name true steps []).map
            fun inner => t.add step (.table .dotted inner)
      | some (.table origin inner) =>
          if origin = .dotted ∨ origin = .implied then
            (put? value name (origin = .dotted) steps inner).map
              fun inner => t.replace step (.table origin inner)
          else none
      | some (.tables closed current) =>
          (put? value name false steps current).map
            fun current =>
              t.replace step (.tables closed current)
      | some _ => none

/- Put keys with values into a table, in order. -/
def putAll?
    (t : Table)
    (pairs : List (Key × Value)) : Option Table :=
  pairs.foldlM
    (fun t (key, value) => t.put? value key.name true key.route)
    t

------------------------------------------------------------
-- Headers
------------------------------------------------------------

/-
  Change the table at the end of a route. Tables missing on
  the way are implied by it, and of an array of tables the
  route goes through the open one.
-/
def within?
    (edit : Table → Option Table) :
    List String → Table → Option Table
  | [], t => edit t
  | step :: steps, t =>
      match t.get? step with
      | none =>
          (within? edit steps []).map
            fun inner => t.add step (.table .implied inner)
      | some (.table origin inner) =>
          if origin = .braces then none
          else
            (within? edit steps inner).map
              fun inner => t.replace step (.table origin inner)
      | some (.tables closed current) =>
          (within? edit steps current).map
            fun current =>
              t.replace step (.tables closed current)
      | some _ => none

/- Enter the table of a header. -/
def enter? (name : String) (t : Table) : Option Table :=
  match t.get? name with
  | none => some (t.add name (.table .header []))
  | some (.table .implied inner) =>
      some (t.replace name (.table .header inner))
  | some _ => none

/- Enter one more table of an array. -/
def append? (name : String) (t : Table) : Option Table :=
  match t.get? name with
  | none => some (t.add name (.tables [] []))
  | some (.tables closed current) =>
      some (t.replace name (.tables (closed ++ [current]) []))
  | some _ => none

end Table

end Toml

end LightShow
