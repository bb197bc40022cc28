/-
  Splitting a run of characters at a separator.

  Separators in front, behind or side by side leave empty
  parts, so the run is its parts with the separator between
  each two.

  Key definitions include:
    * `LightShow.Text.split`
    * `LightShow.Text.join`

  Main statements:
    * `LightShow.Text.join_split`
-/

namespace LightShow

namespace Text

/- Put one character in front of the first part. -/
def consPart (c : Char) :
    List (List Char) → List (List Char)
  | [] => [[c]]
  | p :: ps => (c :: p) :: ps

/- The parts of a run between its separators. -/
def split (sep : Char) (cs : List Char) : List (List Char) :=
  cs.foldr
    (fun c ps => if c = sep then [] :: ps else consPart c ps)
    [[]]

/- Parts with a separator between each two. -/
def join (sep : Char) : List (List Char) → List Char
  | [] => []
  | [p] => p
  | p :: q :: ps => p ++ sep :: join sep (q :: ps)

------------------------------------------------------------
-- Lemmas
------------------------------------------------------------

theorem split_nil (sep : Char) : split sep [] = [[]] := rfl

theorem split_cons
    (sep c : Char)
    (cs : List Char) :
    split sep (c :: cs) =
      if c = sep then [] :: split sep cs
      else consPart c (split sep cs) := rfl

/- There is always a first part. -/
theorem split_ne_nil
    (sep : Char)
    (cs : List Char) :
    split sep cs ≠ [] := by
  cases cs with
  | nil => simp [split_nil]
  | cons c cs =>
      rw [split_cons]
      split
      · simp
      · cases split sep cs <;> simp [consPart]

/- A character in front of the first part is in front. -/
theorem join_consPart
    (sep c : Char)
    {ps : List (List Char)}
    (h : ps ≠ []) :
    join sep (consPart c ps) = c :: join sep ps := by
  match ps, h with
  | [p], _ => rfl
  | p :: q :: ps, _ => simp [consPart, join]

/- Joining the parts gives the run back. -/
theorem join_split
    (sep : Char)
    (cs : List Char) :
    join sep (split sep cs) = cs := by
  induction cs with
  | nil => rfl
  | cons c cs ih =>
      rw [split_cons]
      split
      · next h =>
          cases hs : split sep cs with
          | nil => exact absurd hs (split_ne_nil sep cs)
          | cons p ps =>
              rw [hs] at ih
              simp [join, ih, h]
      · rw [join_consPart sep c (split_ne_nil sep cs), ih]

end Text

end LightShow
