import Mathlib.Logic.Relator
import Mathlib.SetTheory.Cardinal.Arithmetic
import Mathlib.Order.CompletePartialOrder
import LightShow.Expansion.Copies
import LightShow.Proofs.Relabelling

/-
  Instructions that differ in their labels only.

  Two lists of instructions are twins if a naming tells how
  the labels of the first are called in the second. Namings
  of different scopes can be put together, so lists of twins
  can be put one behind the other. A naming that gives every
  label one name, and every name to one label, can be made
  from a renaming of all labels.

  Key definitions include:
    * `Naming`
    * `Naming.Between`
    * `Twins`

  Main statements:
    * `Naming.Between.sup`
    * `Twins.append`
    * `Twins.close`
    * `Twins.exists_relabel`
-/

namespace LightShow

------------------------------------------------------------
-- Namings
------------------------------------------------------------

/- How labels are called elsewhere. -/
abbrev Naming := LabelKey → LabelKey → Prop

/- An operation and the same with another label. -/
inductive Op.Named (R : Naming) : Op → Op → Prop
  | here
      {label label' : String}
      {scope scope' : Nat}
      (h : R (label, scope) (label', scope')) :
      Named R (.here label scope) (.here label' scope')
  | goto
      {label label' : String}
      {scope scope' : Nat}
      (h : R (label, scope) (label', scope')) :
      Named R (.goto label scope) (.goto label' scope')
  | other
      {op : Op}
      (h : op.scope? = none) :
      Named R op op

theorem Op.Named.weaken
    {R S : Naming}
    {op op' : Op}
    (h : Named R op op')
    (hLe : R ≤ S) :
    Named S op op' := by
  cases h with
  | here h => exact .here (hLe _ _ h)
  | goto h => exact .goto (hLe _ _ h)
  | other h => exact .other h

/- An instruction and the same with another label. -/
structure Instruction.Named
    (R : Naming)
    (i j : Instruction) : Prop where
  op : i.op.Named R j.op
  path : j.path = i.path
  zOrder : j.zOrder = i.zOrder
  span : j.span = i.span

/-
  A naming of labels of some scopes by labels of others that
  can be read in both directions.
-/
structure Naming.Between
    (A A' : Set Nat)
    (R : Naming) : Prop where
  unique : Relator.BiUnique R
  left : ∀ k k', R k k' → k.2 ∈ A
  right : ∀ k k', R k k' → k'.2 ∈ A'

namespace Naming

theorem between_bot : Between ∅ ∅ ⊥ where
  unique := ⟨nofun, nofun⟩
  left := nofun
  right := nofun

variable {A A' B B' : Set Nat}
variable {R S : Naming}

theorem Between.weaken
    (h : R.Between A A')
    (hA : A ⊆ B)
    (hA' : A' ⊆ B') :
    R.Between B B' where
  unique := h.unique
  left := fun k k' hk => hA (h.left k k' hk)
  right := fun k k' hk => hA' (h.right k k' hk)

/- Namings of different scopes go together. -/
theorem Between.sup
    (hR : R.Between A A')
    (hS : S.Between B B')
    (hLeft : Disjoint A B)
    (hRight : Disjoint A' B') :
    Between (A ∪ B) (A' ∪ B') (R ⊔ S) := by
  refine ⟨⟨?_, ?_⟩, ?_, ?_⟩
  · rintro a b k (ha | ha) (hb | hb)
    · exact hR.unique.1 ha hb
    · exact absurd (hS.right _ _ hb)
        (Set.disjoint_left.mp hRight (hR.right _ _ ha))
    · exact absurd (hS.right _ _ ha)
        (Set.disjoint_left.mp hRight (hR.right _ _ hb))
    · exact hS.unique.1 ha hb
  · rintro k a b (ha | ha) (hb | hb)
    · exact hR.unique.2 ha hb
    · exact absurd (hS.left _ _ hb)
        (Set.disjoint_left.mp hLeft (hR.left _ _ ha))
    · exact absurd (hS.left _ _ ha)
        (Set.disjoint_left.mp hLeft (hR.left _ _ hb))
    · exact hS.unique.2 ha hb
  · rintro k k' (h | h)
    · exact .inl (hR.left k k' h)
    · exact .inr (hS.left k k' h)
  · rintro k k' (h | h)
    · exact .inl (hR.right k k' h)
    · exact .inr (hS.right k k' h)

end Naming

------------------------------------------------------------
-- Twins
------------------------------------------------------------

/-
  Two lists of instructions that differ in labels only. The
  labels of the body that they belong to are called as `O`
  says; the labels of bodies inlined in it have scopes in
  `A` and are called by labels with scopes in `B`.
-/
def Twins
    (O : Naming)
    (A B : Set Nat)
    (is js : List Instruction) : Prop :=
  ∃ R : Naming, R.Between A B ∧
    List.Forall₂ (Instruction.Named (O ⊔ R)) is js

section Twins

variable {O : Naming}
variable {A A' B B' : Set Nat}
variable {is js ks ls : List Instruction}

theorem forall₂_named_weaken
    {R S : Naming}
    (h : List.Forall₂ (Instruction.Named R) is js)
    (hLe : R ≤ S) :
    List.Forall₂ (Instruction.Named S) is js :=
  h.imp fun _ _ hij =>
    ⟨hij.op.weaken hLe, hij.path, hij.zOrder, hij.span⟩

/- Instructions of the body itself. -/
theorem twins_of_named
    (h : List.Forall₂ (Instruction.Named O) is js)
    (A A' : Set Nat) :
    Twins O A A' is js := by
  refine ⟨⊥, ?_, forall₂_named_weaken h le_sup_left⟩
  exact Naming.between_bot.weaken (Set.empty_subset A)
    (Set.empty_subset A')

theorem Twins.weaken
    {Q : Naming}
    (h : Twins O A A' is js)
    (hO : O ≤ Q)
    (hA : A ⊆ B)
    (hA' : A' ⊆ B') :
    Twins Q B B' is js := by
  rcases h with ⟨R, hR, hAll⟩
  exact ⟨R, hR.weaken hA hA', forall₂_named_weaken hAll
    (sup_le_sup_right hO R)⟩

/- Twins of different scopes go one behind the other. -/
theorem Twins.append
    (h : Twins O A A' is js)
    (hNext : Twins O B B' ks ls)
    (hLeft : Disjoint A B)
    (hRight : Disjoint A' B') :
    Twins O (A ∪ B) (A' ∪ B') (is ++ ks) (js ++ ls) := by
  rcases h with ⟨R, hR, hFirst⟩
  rcases hNext with ⟨S, hS, hSecond⟩
  refine ⟨R ⊔ S, hR.sup hS hLeft hRight, ?_⟩
  apply List.rel_append
  · exact forall₂_named_weaken hFirst
      (sup_le_sup_left le_sup_left O)
  · exact forall₂_named_weaken hSecond
      (sup_le_sup_left le_sup_right O)

/- A whole body: its own labels are among those inlined. -/
theorem Twins.close
    (h : Twins O A A' is js)
    (hOwn : O.Between B B')
    (hLeft : Disjoint B A)
    (hRight : Disjoint B' A') :
    Twins ⊥ (B ∪ A) (B' ∪ A') is js := by
  rcases h with ⟨R, hR, hAll⟩
  refine ⟨O ⊔ R, hOwn.sup hR hLeft hRight, ?_⟩
  rwa [bot_sup_eq]

theorem Twins.length_eq
    (h : Twins O A A' is js) :
    js.length = is.length := by
  rcases h with ⟨R, -, hAll⟩
  exact hAll.length_eq.symm

end Twins

------------------------------------------------------------
-- Renamings
------------------------------------------------------------

/- The name and scope of the label of an operation. -/
def Op.key? : Op → Option LabelKey
  | .here label scope => some (label, scope)
  | .goto label scope => some (label, scope)
  | _ => none

/- A renaming that follows a naming renames as it says. -/
theorem Instruction.Named.eq_relabel
    {R : Naming}
    {σ : LabelKey → LabelKey}
    {i j : Instruction}
    (h : Instruction.Named R i j)
    (hσ : ∀ k k', i.op.key? = some k → R k k' → σ k = k') :
    j = i.relabel σ := by
  rcases i with ⟨op, path, zOrder, span⟩
  rcases j with ⟨op', path', zOrder', span'⟩
  rcases h with ⟨hOp, rfl, rfl, rfl⟩
  simp only [Instruction.relabel, Instruction.mk.injEq,
    and_true]
  cases hOp with
  | here h => simp [Op.relabel, hσ _ _ rfl h]
  | goto h => simp [Op.relabel, hσ _ _ rfl h]
  | other h =>
      cases op with
      | here label scope => cases h
      | goto label scope => cases h
      | _ => rfl

/- Whatever label has a name is named. -/
theorem exists_named_of_key?
    {R : Naming}
    {is js : List Instruction}
    (h : List.Forall₂ (Instruction.Named R) is js) :
    ∀ i ∈ is, ∀ k, i.op.key? = some k → ∃ k', R k k' := by
  intro i hi k hKey
  rcases Success.exists_of_forall₂ h.flip i hi
    with ⟨j, -, hij⟩
  rcases i with ⟨op, path, zOrder, span⟩
  have hOp := hij.op
  generalize j.op = op' at hOp
  cases hOp with
  | here h =>
      cases hKey
      exact ⟨_, h⟩
  | goto h =>
      cases hKey
      exact ⟨_, h⟩
  | other h =>
      cases op with
      | here label scope => cases h
      | goto label scope => cases h
      | _ => cases hKey

/- A naming of finitely many labels is part of a renaming. -/
theorem Naming.exists_injective
    {R : Naming}
    (hUnique : Relator.BiUnique R)
    {keys : Set LabelKey}
    (hFinite : keys.Finite)
    (hNamed : ∀ k ∈ keys, ∃ k', R k k') :
    ∃ σ : LabelKey → LabelKey,
      Function.Injective σ ∧
        ∀ k ∈ keys, ∀ k', R k k' → σ k = k' := by
  choose name hName using hNamed
  let f : keys ↪ LabelKey :=
    ⟨fun k => name k.1 k.2, fun a b hab => by
      have ha := hName a.1 a.2
      have hb := hName b.1 b.2
      simp only at hab
      rw [hab] at ha
      exact Subtype.ext (hUnique.1 ha hb)⟩
  have hSmall : Cardinal.mk keys < Cardinal.mk LabelKey :=
    (Cardinal.lt_aleph0_iff_set_finite.mpr
      hFinite).trans_le (Cardinal.aleph0_le_mk LabelKey)
  rcases Cardinal.extend_function_of_lt f hSmall
    ⟨Equiv.refl LabelKey⟩ with ⟨σ, hσ⟩
  refine ⟨σ, σ.injective, ?_⟩
  intro k hk k' hk'
  rw [hσ ⟨k, hk⟩]
  exact hUnique.2 (hName k hk) hk'

theorem eq_map_of_forall₂
    {α β : Type}
    {R : α → β → Prop}
    {f : α → β}
    {xs : List α}
    {ys : List β}
    (h : List.Forall₂ R xs ys)
    (hEq : ∀ x ∈ xs, ∀ y, R x y → y = f x) :
    ys = xs.map f := by
  induction h with
  | nil => rfl
  | cons hHead _ ih =>
      rcases List.forall_mem_cons.mp hEq
        with ⟨hFirst, hRest⟩
      rw [List.map_cons, ← hFirst _ hHead, ← ih hRest]

/- One of two twins is the other with renamed labels. -/
theorem Twins.exists_relabel
    {A A' : Set Nat}
    {is js : List Instruction}
    (h : Twins ⊥ A A' is js) :
    ∃ σ, Function.Injective σ ∧
      js = is.map (Instruction.relabel σ) := by
  rcases h with ⟨R, hR, hAll⟩
  rw [bot_sup_eq] at hAll
  let keys : Set LabelKey :=
    {k | k ∈ is.filterMap fun i => i.op.key?}
  have hFinite : keys.Finite := List.finite_toSet _
  have hNamed : ∀ k ∈ keys, ∃ k', R k k' := by
    intro k hk
    rcases List.mem_filterMap.mp hk with ⟨i, hi, hKey⟩
    exact exists_named_of_key? hAll i hi k hKey
  rcases Naming.exists_injective hR.unique hFinite hNamed
    with ⟨σ, hσ, hFollows⟩
  refine ⟨σ, hσ, ?_⟩
  apply eq_map_of_forall₂ hAll
  intro i hi j hij
  apply hij.eq_relabel
  intro k k' hKey
  exact hFollows k (List.mem_filterMap.mpr ⟨i, hi, hKey⟩) k'

end LightShow
