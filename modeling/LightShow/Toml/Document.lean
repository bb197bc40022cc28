import LightShow.Toml.Settled
import LightShow.Toml.Statement

/-
  The table that a TOML document describes.

  Its statements are carried out in order: keys with values
  go into the table that was entered last. At the end all
  values are settled.

  Key definitions include:
    * `LightShow.Toml.Draft`
    * `LightShow.Toml.Draft.step?`
    * `LightShow.Toml.parse?`
-/

namespace LightShow

namespace Toml

/- A table so far, and the route to the part entered last. -/
structure Draft where
  table : Table := []
  route : List String := []

namespace Draft

/- Carry out one statement. -/
def step? (d : Draft) : Statement → Option Draft
  | .table key =>
      (d.table.within? (Table.enter? key.name) key.route).map
        fun t => ⟨t, key.route ++ [key.name]⟩
  | .item key =>
      (d.table.within? (Table.append? key.name) key.route).map
        fun t => ⟨t, key.route ++ [key.name]⟩
  | .pair key value =>
      (d.table.within?
        (Table.put? value key.name true key.route) d.route).map
        fun t => { d with table := t }

end Draft

/- Drop a byte order mark in front. -/
def dropMark : List Char → List Char
  | [] => []
  | c :: cs => if c.toNat = 0xFEFF then cs else c :: cs

/- The table of a document; nothing for a faulty text. -/
def parse? (text : String) : Option Table := do
  let lines ← statements? (dropMark text.toList)
  let draft ← lines.foldlM Draft.step? {}
  settleEntries? draft.table

end Toml

end LightShow
