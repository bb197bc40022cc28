import Mathlib.Data.List.Forall2
import LightShow.Image.Fault

/-
  What it takes for a sequence of checks to succeed.

  Main statements:
    * `Success.bind_eq_ok`
    * `Success.mapM_eq_ok`
    * `Success.mapM_eq_error`
    * `Success.mapM_eq_error_iff`
    * `Success.forall_of_forall₂`
-/

namespace LightShow

namespace Success

variable {ε α β : Type}

------------------------------------------------------------
-- One Check After Another
------------------------------------------------------------

/- A bind that succeeds has a value between. -/
theorem bind_eq_ok
    {x : Except ε α}
    {f : α → Except ε β}
    {b : β}
    (h : (x >>= f) = .ok b) :
    ∃ a, x = .ok a ∧ f a = .ok b := by
  cases hx : x with
  | error e =>
      rw [hx] at h
      cases h
  | ok a =>
      rw [hx] at h
      exact ⟨a, rfl, h⟩

/- A bind that fails does so first or second. -/
theorem bind_eq_error
    {x : Except ε α}
    {f : α → Except ε β}
    {e : ε}
    (h : (x >>= f) = .error e) :
    x = .error e ∨ ∃ a, x = .ok a ∧ f a = .error e := by
  cases hx : x with
  | error e' =>
      rw [hx] at h
      cases h
      exact .inl rfl
  | ok a =>
      rw [hx] at h
      exact .inr ⟨a, rfl, h⟩

theorem pure_eq_ok
    {a b : α}
    (h : (pure a : Except ε α) = .ok b) :
    a = b :=
  Except.ok.inj h

theorem exists_of_isOk
    {x : Except ε α}
    (h : x.isOk = true) :
    ∃ a, x = .ok a := by
  cases x with
  | error e => cases h
  | ok a => exact ⟨a, rfl⟩

theorem placed_eq_ok
    {span : Option Span}
    {r : Except Fault α}
    {a : α}
    (h : Located.placed span r = .ok a) :
    r = .ok a := by
  cases r with
  | error e => cases h
  | ok b => exact congrArg Except.ok (Except.ok.inj h)

theorem unplaced_eq_ok
    {r : Except Fault α}
    {a : α}
    (h : Located.unplaced r = .ok a) :
    r = .ok a := by
  cases r with
  | error e => cases h
  | ok b => exact congrArg Except.ok (Except.ok.inj h)

------------------------------------------------------------
-- Checks Of A List
------------------------------------------------------------

/- If all checks of a list succeed, each one does. -/
theorem mapM_eq_ok
    {f : α → Except ε β}
    {xs : List α}
    {ys : List β}
    (h : xs.mapM f = .ok ys) :
    List.Forall₂ (fun x y => f x = .ok y) xs ys := by
  induction xs generalizing ys with
  | nil =>
      rw [List.mapM_nil] at h
      cases pure_eq_ok h
      exact .nil
  | cons x xs ih =>
      rw [List.mapM_cons] at h
      rcases bind_eq_ok h with ⟨y, hy, h⟩
      rcases bind_eq_ok h with ⟨rest, hRest, h⟩
      cases pure_eq_ok h
      exact .cons hy (ih hRest)

/- If checks of a list fail, it is with the fault of one. -/
theorem mapM_eq_error
    {f : α → Except ε β}
    {xs : List α}
    {e : ε}
    (h : xs.mapM f = .error e) :
    ∃ x ∈ xs, f x = .error e := by
  induction xs with
  | nil =>
      rw [List.mapM_nil] at h
      cases h
  | cons x xs ih =>
      rw [List.mapM_cons] at h
      rcases bind_eq_error h with hFirst | ⟨y, -, h⟩
      · exact ⟨x, List.mem_cons_self .., hFirst⟩
      · rcases bind_eq_error h with hRest | ⟨ys, -, h⟩
        · rcases ih hRest with ⟨z, hz, hFault⟩
          exact ⟨z, List.mem_cons_of_mem x hz, hFault⟩
        · cases h

/- If steps over a list fail, it is with the fault of one. -/
theorem foldlM_eq_error
    {f : β → α → Except ε β}
    {xs : List α}
    {b : β}
    {e : ε}
    (h : xs.foldlM f b = .error e) :
    ∃ x ∈ xs, ∃ c, f c x = .error e := by
  induction xs generalizing b with
  | nil => cases h
  | cons x xs ih =>
      rw [List.foldlM_cons] at h
      rcases bind_eq_error h with hFirst | ⟨c, -, h⟩
      · exact ⟨x, List.mem_cons_self .., b, hFirst⟩
      · rcases ih h with ⟨z, hz, hFault⟩
        exact ⟨z, List.mem_cons_of_mem x hz, hFault⟩

/- The fault of checks of a list is the first one. -/
theorem mapM_eq_error_iff
    {f : α → Except ε β}
    {fault? : α → Option ε}
    {xs : List α}
    (h : ∀ x ∈ xs, ∀ e, f x = .error e ↔ fault? x = some e)
    (e : ε) :
    xs.mapM f = .error e ↔ xs.findSome? fault? = some e := by
  induction xs with
  | nil =>
      rw [List.mapM_nil, List.findSome?_nil]
      constructor
      · intro hFault
        cases hFault
      · intro hFault
        cases hFault
  | cons x xs ih =>
      rcases List.forall_mem_cons.mp h with ⟨hFirst, hRest⟩
      rw [List.mapM_cons, List.findSome?_cons]
      cases hx : f x with
      | error other =>
          rw [(hFirst other).mp hx]
          constructor
          · intro hFault
            cases hFault
            rfl
          · intro hFault
            cases hFault
            rfl
      | ok y =>
          have hNone : fault? x = none := by
            cases hSome : fault? x with
            | none => rfl
            | some other =>
                have hOther := (hFirst other).mpr hSome
                rw [hx] at hOther
                cases hOther
          rw [hNone]
          constructor
          · intro hFault
            rcases bind_eq_error hFault with hHead | hBehind
            · cases hHead
            · rcases hBehind with ⟨_, -, hBehind⟩
              rcases bind_eq_error hBehind with hTail | hPure
              · exact (ih hRest).mp hTail
              · rcases hPure with ⟨_, -, hPure⟩
                cases hPure
          · intro hFault
            have hTail := (ih hRest).mpr hFault
            rw [hTail]
            rfl

theorem forM_eq_ok
    {f : α → Except ε Unit}
    {xs : List α}
    (h : ∀ x ∈ xs, f x = .ok ()) :
    xs.forM f = .ok () := by
  induction xs with
  | nil => rfl
  | cons x xs ih =>
      rcases List.forall_mem_cons.mp h with ⟨hFirst, hRest⟩
      have hBoth : (f x >>= fun _ => xs.forM f) = .ok () := by
        rw [hFirst]
        exact ih hRest
      exact hBoth

/- Lists side by side split at the same place. -/
theorem forall₂_append_cons
    {R : α → β → Prop}
    {xs : List α}
    {before after : List β}
    {y : β}
    (h : List.Forall₂ R xs (before ++ y :: after)) :
    ∃ front x back,
      xs = front ++ x :: back ∧
        List.Forall₂ R front before ∧
        R x y ∧
        List.Forall₂ R back after := by
  induction before generalizing xs with
  | nil =>
      rcases List.forall₂_cons_right_iff.mp h
        with ⟨x, back, hHead, hTail, rfl⟩
      exact ⟨[], x, back, rfl, .nil, hHead, hTail⟩
  | cons b before ih =>
      rcases List.forall₂_cons_right_iff.mp h
        with ⟨a, rest, hHead, hTail, rfl⟩
      rcases ih hTail
        with ⟨front, x, back, rfl, hFront, hx, hBack⟩
      exact ⟨a :: front, x, back, rfl, .cons hHead hFront,
        hx, hBack⟩

theorem forall₂_getElem?
    {R : α → β → Prop}
    {xs : List α}
    {ys : List β}
    (h : List.Forall₂ R xs ys)
    {i : Nat}
    {x : α}
    {y : β}
    (hx : xs[i]? = some x)
    (hy : ys[i]? = some y) :
    R x y := by
  rcases List.getElem?_eq_some_iff.mp hx with ⟨hi, rfl⟩
  rcases List.getElem?_eq_some_iff.mp hy with ⟨hj, rfl⟩
  exact h.get hi hj

/- What passes from one side to the other does so for all. -/
theorem forall_of_forall₂
    {R : α → β → Prop}
    {P : α → Prop}
    {Q : β → Prop}
    {xs : List α}
    {ys : List β}
    (hPass : ∀ x y, R x y → P x → Q y)
    (h : List.Forall₂ R xs ys)
    (hAll : ∀ x ∈ xs, P x) :
    ∀ y ∈ ys, Q y := by
  induction h with
  | nil =>
      intro y hy
      cases hy
  | @cons x y xs ys hHead _ ih =>
      intro z hz
      rcases List.mem_cons.mp hz with rfl | hz
      · exact hPass x z hHead (hAll x (List.mem_cons_self ..))
      · exact ih
          (fun w hw => hAll w (List.mem_cons_of_mem x hw))
          z hz

/- What is on one side comes from something on the other. -/
theorem exists_of_forall₂
    {R : α → β → Prop}
    {xs : List α}
    {ys : List β}
    (h : List.Forall₂ R xs ys) :
    ∀ y ∈ ys, ∃ x ∈ xs, R x y :=
  forall_of_forall₂ (P := fun x => x ∈ xs)
    (fun x _ hxy hx => ⟨x, hx, hxy⟩) h fun _ hx => hx

/- What both sides share is the same all along. -/
theorem map_eq_of_forall₂
    {γ : Type}
    {R : α → β → Prop}
    {f : α → γ}
    {g : β → γ}
    {xs : List α}
    {ys : List β}
    (hShared : ∀ x y, R x y → g y = f x)
    (h : List.Forall₂ R xs ys) :
    ys.map g = xs.map f := by
  induction h with
  | nil => rfl
  | cons hHead _ ih =>
      rw [List.map_cons, List.map_cons, hShared _ _ hHead, ih]

theorem filterMap_eq_of_forall₂
    {γ : Type}
    {R : α → β → Prop}
    {f : α → Option γ}
    {g : β → Option γ}
    {xs : List α}
    {ys : List β}
    (hShared : ∀ x y, R x y → g y = f x)
    (h : List.Forall₂ R xs ys) :
    ys.filterMap g = xs.filterMap f := by
  have hMap := map_eq_of_forall₂ hShared h
  have hBoth := congrArg (List.filterMap id) hMap
  rw [List.filterMap_map, List.filterMap_map] at hBoth
  exact hBoth

end Success

end LightShow
