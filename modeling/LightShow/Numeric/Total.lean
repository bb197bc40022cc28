/-
  Sums of lists of naturals.

  Key definitions include:
    * `LightShow.total`

  Main statements:
    * `LightShow.total_append`
-/

namespace LightShow

/- The sum of a list. -/
def total (ns : List Nat) : Nat :=
  ns.foldr (· + ·) 0

@[simp]
theorem total_nil : total [] = 0 := rfl

@[simp]
theorem total_cons
    (n : Nat)
    (ns : List Nat) :
    total (n :: ns) = n + total ns := rfl

/- The sum of two lists is the sum of their sums. -/
@[simp]
theorem total_append
    (ms ns : List Nat) :
    total (ms ++ ns) = total ms + total ns := by
  induction ms with
  | nil => simp
  | cons m ms ih => simp [ih, Nat.add_assoc]

end LightShow
