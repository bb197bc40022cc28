import Mathlib.Data.List.Permutation
import LightShow.Proofs.InlinedCalls
import LightShow.Proofs.Twins

/-
  Writing out a call does not change the show.

  The instructions before and after are twins. They come in
  the same order and on the same paths, and what a label was
  called in a copy of the function that is called, it is now
  called by its new name in the function that called it.

  Key definitions include:
    * `Numbers.scopesFrom`
    * `Meaning.Site.Beside`
    * `Script.CallSite.Pairs`
    * `Script.CallSite.naming`
    * `Script.CallSite.copyScopes`

  Main statements:
    * `Script.CallSite.twins_ofStatements`
    * `Script.CallSite.Becomes.twins_instructions`
    * `Script.inlining_keeps_show`
-/

namespace LightShow

------------------------------------------------------------
-- Scopes In A Row
------------------------------------------------------------

namespace Numbers

/- The scopes that are used from some numbers on. -/
def scopesFrom (next used : Numbers) : Set Nat :=
  Set.Ico next.scopes (next.scopes + used.scopes)

theorem scopesFrom_add
    (next a b : Numbers) :
    next.scopesFrom (a.add b) =
      next.scopesFrom a ∪ (next.add a).scopesFrom b := by
  simp only [scopesFrom, add]
  rw [Set.Ico_union_Ico_eq_Ico (by omega) (by omega),
    Nat.add_assoc]

theorem disjoint_scopesFrom
    (next a b : Numbers) :
    Disjoint (next.scopesFrom a)
      ((next.add a).scopesFrom b) := by
  rw [Set.disjoint_left]
  rintro x ⟨-, hFirst⟩ ⟨hSecond, -⟩
  simp only [add] at hSecond
  omega

end Numbers

section Rows

variable {O : Naming}
variable {next next' a a' b b' : Numbers}
variable {is js ks ls : List Instruction}

/- Twins whose scopes follow one another. -/
theorem Twins.follow
    (h : Twins O (next.scopesFrom a) (next'.scopesFrom a')
      is js)
    (hNext : Twins O ((next.add a).scopesFrom b)
      ((next'.add a').scopesFrom b') ks ls) :
    Twins O (next.scopesFrom (a.add b))
      (next'.scopesFrom (a'.add b')) (is ++ ks)
      (js ++ ls) := by
  rw [Numbers.scopesFrom_add, Numbers.scopesFrom_add]
  exact h.append hNext (Numbers.disjoint_scopesFrom next a b)
    (Numbers.disjoint_scopesFrom next' a' b')

/- Twins in a row whose scopes are all different. -/
theorem twins_flatMap
    {A A' : Nat → Set Nat}
    {f g : Nat → List Instruction}
    {count : Nat}
    (hLeft : ∀ i j, i < j → Disjoint (A i) (A j))
    (hRight : ∀ i j, i < j → Disjoint (A' i) (A' j))
    (h : ∀ i < count, Twins O (A i) (A' i) (f i) (g i)) :
    Twins O {x | ∃ i < count, x ∈ A i}
      {x | ∃ i < count, x ∈ A' i}
      ((List.range count).flatMap f)
      ((List.range count).flatMap g) := by
  induction count with
  | zero => exact twins_of_named .nil _ _
  | succ count ih =>
      have hBefore := ih fun i hi => h i (Nat.lt_succ_of_lt hi)
      have hLast := h count (Nat.lt_succ_self count)
      have hApart {B : Nat → Set Nat}
          (hB : ∀ i j, i < j → Disjoint (B i) (B j)) :
          Disjoint {x | ∃ i < count, x ∈ B i} (B count) := by
        rw [Set.disjoint_left]
        rintro x ⟨i, hi, hx⟩
        exact Set.disjoint_left.mp (hB i count hi) hx
      have hAmong (B : Nat → Set Nat) :
          {x | ∃ i < count, x ∈ B i} ∪ B count ⊆
            {x | ∃ i < count + 1, x ∈ B i} := by
        rintro x (⟨i, hi, hx⟩ | hx)
        · exact ⟨i, Nat.lt_succ_of_lt hi, hx⟩
        · exact ⟨count, Nat.lt_succ_self count, hx⟩
      rw [List.range_succ, List.flatMap_append,
        List.flatMap_append, List.flatMap_singleton,
        List.flatMap_singleton]
      exact (hBefore.append hLast (hApart hLeft)
        (hApart hRight)).weaken le_rfl (hAmong A) (hAmong A')

theorem Numbers.disjoint_times
    (next a : Numbers)
    {i j : Nat}
    (h : i < j) :
    Disjoint ((next.add (a.times i)).scopesFrom a)
      ((next.add (a.times j)).scopesFrom a) := by
  have hLe := Nat.mul_le_mul_right a.scopes h
  rw [Nat.succ_mul] at hLe
  rw [Set.disjoint_left]
  rintro x ⟨-, hFirst⟩ ⟨hSecond, -⟩
  simp only [Numbers.add, Numbers.times] at hFirst hSecond
  omega

theorem Numbers.scopesFrom_times
    (next a : Numbers)
    (count : Nat) :
    {x | ∃ i < count,
        x ∈ (next.add (a.times i)).scopesFrom a} ⊆
      next.scopesFrom (a.times count) := by
  rintro x ⟨i, hi, hFirst, hSecond⟩
  have hLe := Nat.mul_le_mul_right a.scopes hi
  rw [Nat.succ_mul] at hLe
  simp only [Numbers.scopesFrom, Numbers.add, Numbers.times,
    Set.mem_Ico] at hFirst hSecond ⊢
  omega

/- Twins of like size in a row. -/
theorem twins_times
    {f g : Nat → List Instruction}
    {count : Nat}
    (h : ∀ i < count,
      Twins O ((next.add (a.times i)).scopesFrom a)
        ((next'.add (a'.times i)).scopesFrom a')
        (f i) (g i)) :
    Twins O (next.scopesFrom (a.times count))
      (next'.scopesFrom (a'.times count))
      ((List.range count).flatMap f)
      ((List.range count).flatMap g) :=
  (twins_flatMap (fun _ _ => Numbers.disjoint_times next a)
    (fun _ _ => Numbers.disjoint_times next' a') h).weaken
      le_rfl (Numbers.scopesFrom_times next a count)
      (Numbers.scopesFrom_times next' a' count)

end Rows

------------------------------------------------------------
-- Sites
------------------------------------------------------------

namespace Meaning

/- Two places on the same path with the same next path. -/
structure Site.Beside (a b : Site) : Prop where
  path : b.path = a.path
  zOrder : b.zOrder = a.zOrder
  paths : b.next.paths = a.next.paths

theorem Site.Beside.add
    {a b : Site}
    (h : a.Beside b)
    {n n' : Numbers}
    (hPaths : n'.paths = n.paths) :
    Beside { a with next := a.next.add n }
      { b with next := b.next.add n' } where
  path := h.path
  zOrder := h.zOrder
  paths := by simp [Numbers.add, h.paths, hPaths]

/- The places behind the scopes of two bodies. -/
theorem Site.Beside.opened
    {a b : Site}
    (h : a.Beside b) :
    Beside { a with next := a.next.add ⟨0, 1⟩ }
      { b with next := b.next.add ⟨0, 1⟩ } :=
  h.add rfl

/- An instruction at two places. -/
theorem Site.Beside.named_emit
    {a b : Site}
    (h : a.Beside b)
    {O : Naming}
    {op op' : Op}
    (hOp : op.Named O op')
    (span : Span) :
    (emit a span op).Named O (emit b span op') where
  op := hOp
  path := congrArg some h.path
  zOrder := congrArg some h.zOrder
  span := rfl

/- A path that is activated in both. -/
theorem twins_activated
    {O : Naming}
    {body body' : Site → List Instruction}
    {used used' : Numbers}
    (hBody : ∀ a b : Site, a.Beside b →
      Twins O (a.next.scopesFrom used)
        (b.next.scopesFrom used') (body a) (body' b))
    {next next' : Numbers}
    (hPaths : next'.paths = next.paths)
    (caller : Option Nat)
    (callerZ zOrder : Nat)
    (span : Span) :
    Twins O (next.scopesFrom (used.add ⟨1, 0⟩))
      (next'.scopesFrom (used'.add ⟨1, 0⟩))
      (activated body caller callerZ zOrder span next)
      (activated body' caller callerZ zOrder span next') := by
  let site : Site := ⟨next.paths, zOrder, next.add ⟨1, 0⟩⟩
  let site' : Site :=
    ⟨next'.paths, zOrder, next'.add ⟨1, 0⟩⟩
  have hBeside : site.Beside site' :=
    ⟨hPaths, rfl, congrArg (· + 1) hPaths⟩
  rcases hBody site site' hBeside with ⟨R, hR, hAll⟩
  refine ⟨R, hR, ?_⟩
  have hActivate :
      Instruction.Named (O ⊔ R)
        ⟨.activate next.paths, caller, some callerZ,
          some span⟩
        ⟨.activate next'.paths, caller, some callerZ,
          some span⟩ := by
    rw [hPaths]
    exact ⟨.other rfl, rfl, rfl, rfl⟩
  have hFinish := hBeside.named_emit
    (Op.Named.other rfl : Op.Named (O ⊔ R) .finish .finish)
    span
  exact .cons hActivate
    (List.rel_append hAll (.cons hFinish .nil))

/- Statements in a row are expanded in a row. -/
theorem ofStatements_append
    (script : Script)
    (tick : Nat)
    (size : Function → Numbers)
    (body : Function → Site → List Instruction)
    (scope : Nat)
    (xs ys : List Statement)
    (site : Site) :
    ofStatements script tick size body scope (xs ++ ys)
        site =
      ofStatements script tick size body scope xs site ++
        ofStatements script tick size body scope ys
          { site with
            next := site.next.add
              (usedByAll script size xs) } := by
  induction xs generalizing site with
  | nil => rfl
  | cons st xs ih =>
      rw [List.cons_append, ofStatements, ofStatements, ih,
        usedByAll_cons, List.append_assoc,
        ← Numbers.add_assoc]

end Meaning

------------------------------------------------------------
-- Statements
------------------------------------------------------------

namespace Script.CallSite

open Meaning (Site usedBy usedByAll ofStatement ofStatements)

variable {script : Script}
variable (site : script.CallSite)
variable {rename : Nat → String → String}
variable (tick : Nat)
variable {size size' : Function → Numbers}
variable {body body' : Function → Site → List Instruction}

/- The bodies of two functions come out alike. -/
structure Pairs
    (size size' : Function → Numbers)
    (body body' : Function → Site → List Instruction)
    (f f' : Function) : Prop where
  within : (size' f').Within (size f)
  twins : ∀ a b : Site, a.Beside b →
    Twins ⊥ (a.next.scopesFrom (size f))
      (b.next.scopesFrom (size' f')) (body f a) (body' f' b)

/- A statement and its counterpart come out alike. -/
theorem twins_ofStatement
    (names : String → String)
    {O : Naming}
    {scope scope' : Nat}
    {st : Statement}
    (hNames : ∀ label, st.action.label? = some label →
      O (label, scope) (names label, scope'))
    (hPairs : ∀ f ∈ Meaning.callees script st.action, ∀ f',
      site.Becomes rename f f' →
        Pairs size size' body body' f f')
    {a b : Site}
    (hBeside : a.Beside b) :
    Twins O (a.next.scopesFrom (usedBy script size st.action))
      (b.next.scopesFrom
        (usedBy (site.inlined rename) size' st.action))
      (ofStatement script tick size body scope st a)
      (ofStatement (site.inlined rename) tick size' body'
        scope' (st.relabel names) b) := by
  rcases st with ⟨action, span⟩
  have hOther {op : Op} (hOp : op.scope? = none) :=
    hBeside.named_emit (Op.Named.other hOp : op.Named O op)
      span
  cases action with
  | glow list color =>
      exact twins_of_named (.cons (hOther rfl) .nil) _ _
  | ramp list start stop d =>
      exact twins_of_named (.cons (hOther rfl)
        (.cons (hOther rfl) (.cons (hOther rfl) .nil))) _ _
  | pause d =>
      exact twins_of_named (.cons (hOther rfl) .nil) _ _
  | here label =>
      exact twins_of_named (.cons (hBeside.named_emit
        (.here (hNames _ rfl)) span) .nil) _ _
  | goto label =>
      exact twins_of_named (.cons (hBeside.named_emit
        (.goto (hNames _ rfl)) span) .nil) _ _
  | call name count =>
      rcases site.find?_inlined rename name.text
        with ⟨hNone, hNew⟩ | ⟨f, f', hFind, hNew, hBecomes⟩
      · simp only [ofStatement, Statement.relabel,
          Action.relabel, hNone, hNew]
        exact twins_of_named .nil _ _
      · simp only [ofStatement, Statement.relabel,
          Action.relabel, usedBy, hFind, hNew,
          Option.elim_some]
        apply twins_times
        intro i hi
        have hMem : f ∈ Meaning.callees script
            (.call name count) := by
          simp [Meaning.callees, Nat.ne_zero_of_lt hi, hFind]
        have hPair := hPairs f hMem f' hBecomes
        exact (hPair.twins _ _ (hBeside.add
          (hPair.within.times i).paths_eq)).weaken bot_le
            subset_rfl subset_rfl
  | callAsync name zOrder =>
      rcases site.find?_inlined rename name.text
        with ⟨hNone, hNew⟩ | ⟨f, f', hFind, hNew, hBecomes⟩
      · simp only [ofStatement, Statement.relabel,
          Action.relabel, hNone, hNew]
        exact twins_of_named .nil _ _
      · have hMem : f ∈ Meaning.callees script
            (.callAsync name zOrder) := by
          simp [Meaning.callees, hFind]
        have hPair := hPairs f hMem f' hBecomes
        simp only [ofStatement, Statement.relabel,
          Action.relabel, usedBy, hFind, hNew,
          Option.elim_some, hBeside.path, hBeside.zOrder]
        exact Meaning.twins_activated
          (fun a b h => (hPair.twins a b h).weaken bot_le
            subset_rfl subset_rfl) hBeside.paths _ _ _ _

/- The same for statements in a row. -/
theorem twins_ofStatements
    (names : String → String)
    {O : Naming}
    {scope scope' : Nat}
    {sts : List Statement}
    (hNames : ∀ label ∈ Statement.labels sts,
      O (label, scope) (names label, scope'))
    (hPairs : ∀ st ∈ sts,
      ∀ f ∈ Meaning.callees script st.action, ∀ f',
        site.Becomes rename f f' →
          Pairs size size' body body' f f')
    {a b : Site}
    (hBeside : a.Beside b) :
    Twins O (a.next.scopesFrom (usedByAll script size sts))
      (b.next.scopesFrom
        (usedByAll (site.inlined rename) size' sts))
      (ofStatements script tick size body scope sts a)
      (ofStatements (site.inlined rename) tick size' body'
        scope' (sts.map (Statement.relabel names)) b) := by
  induction sts generalizing a b with
  | nil => exact twins_of_named .nil _ _
  | cons st sts ih =>
      rcases List.forall_mem_cons.mp hPairs
        with ⟨hFirst, hRest⟩
      have hOwn : ∀ label, st.action.label? = some label →
          O (label, scope) (names label, scope') := by
        intro label hLabel
        apply hNames
        exact List.mem_filterMap.mpr
          ⟨st, List.mem_cons_self .., hLabel⟩
      have hLater : ∀ label ∈ Statement.labels sts,
          O (label, scope) (names label, scope') := by
        intro label hLabel
        apply hNames
        rcases List.mem_filterMap.mp hLabel
          with ⟨other, hOther, hLabel⟩
        exact List.mem_filterMap.mpr
          ⟨other, List.mem_cons_of_mem st hOther, hLabel⟩
      have hUsed := site.within_usedBy
        fun f hf f' hBecomes =>
          (hFirst f hf f' hBecomes).within
      rw [List.map_cons, ofStatements, ofStatements,
        Meaning.usedByAll_cons, Meaning.usedByAll_cons]
      apply (site.twins_ofStatement tick names hOwn hFirst
        hBeside).follow
      simp only [Statement.relabel, Meaning.usedBy_relabel]
      exact ih hLater hRest (hBeside.add hUsed.paths_eq)

------------------------------------------------------------
-- Bodies That Are Kept
------------------------------------------------------------

theorem map_relabel_id
    (sts : List Statement) :
    sts.map (Statement.relabel id) = sts := by
  have hId : Statement.relabel id = id := by
    funext st
    rw [Statement.relabel, relabel_id]
    rfl
  rw [hId, List.map_id]

/- Labels of one scope keep their names in another. -/
def sameNames (scope scope' : Nat) : Naming :=
  fun k k' => k.2 = scope ∧ k'.2 = scope' ∧ k'.1 = k.1

theorem between_sameNames
    (scope scope' : Nat) :
    (sameNames scope scope').Between {scope} {scope'} where
  unique := by
    constructor
    · rintro a b k ⟨ha, -, haName⟩ ⟨hb, -, hbName⟩
      exact Prod.ext (haName.symm.trans hbName)
        (ha.trans hb.symm)
    · rintro k a b ⟨-, ha, haName⟩ ⟨-, hb, hbName⟩
      exact Prod.ext (haName.trans hbName.symm)
        (ha.trans hb.symm)
  left := fun _ _ h => h.1
  right := fun _ _ h => h.2.1

/- The scope of a body and those of what it inlines. -/
theorem insert_scopesFrom
    (next used : Numbers) :
    {next.scopes} ∪ (next.add ⟨0, 1⟩).scopesFrom used ⊆
      next.scopesFrom (used.add ⟨0, 1⟩) := by
  rintro x (rfl | ⟨hFirst, hSecond⟩)
  · simp only [Numbers.scopesFrom, Numbers.add, Set.mem_Ico]
    omega
  · simp only [Numbers.scopesFrom, Numbers.add, Set.mem_Ico]
      at hFirst hSecond ⊢
    omega

theorem disjoint_own
    (next used : Numbers) :
    Disjoint {next.scopes}
      ((next.add ⟨0, 1⟩).scopesFrom used) := by
  rw [Set.disjoint_left]
  rintro x rfl ⟨hFirst, -⟩
  simp only [Numbers.add] at hFirst
  omega

/- A body that is kept comes out alike. -/
theorem twins_kept
    {f : Function}
    (hPairs : ∀ st ∈ f.body,
      ∀ g ∈ Meaning.callees script st.action, ∀ g',
        site.Becomes rename g g' →
          Pairs size size' body body' g g')
    {a b : Site}
    (hBeside : a.Beside b) :
    Twins ⊥
      (a.next.scopesFrom
        ((usedByAll script size f.body).add ⟨0, 1⟩))
      (b.next.scopesFrom
        ((usedByAll (site.inlined rename) size'
          f.body).add ⟨0, 1⟩))
      (ofStatements script tick size body a.next.scopes
        f.body { a with next := a.next.add ⟨0, 1⟩ })
      (ofStatements (site.inlined rename) tick size' body'
        b.next.scopes f.body
        { b with next := b.next.add ⟨0, 1⟩ }) := by
  have hOwn :=
    between_sameNames a.next.scopes b.next.scopes
  have hNames : ∀ label ∈ Statement.labels f.body,
      sameNames a.next.scopes b.next.scopes
        (label, a.next.scopes) (id label, b.next.scopes) :=
    fun _ _ => ⟨rfl, rfl, rfl⟩
  have hAll := site.twins_ofStatements tick id hNames hPairs
    hBeside.opened
  rw [map_relabel_id] at hAll
  exact (hAll.close hOwn (disjoint_own _ _)
    (disjoint_own _ _)).weaken le_rfl
      (insert_scopesFrom _ _) (insert_scopesFrom _ _)

------------------------------------------------------------
-- The Body That Changes
------------------------------------------------------------

/-
  What the labels of the calling function and of the copies
  are called: the former keep their names, the latter have
  scopes of their own, which are lost, and get new names.
-/
def naming
    (rename : Nat → String → String)
    (own own' start each : Nat) : Naming :=
  fun k k' => k'.2 = own' ∧
    ((k.2 = own ∧
        k.1 ∈ Statement.labels site.caller.body ∧
        k'.1 = k.1) ∨
      ∃ i < site.count,
        k.2 = start + i * each ∧
          k.1 ∈ Statement.labels site.callee.body ∧
          k'.1 = rename i k.1)

/- The scopes of the calling function and of the copies. -/
def ownScopes (own start each : Nat) : Set Nat :=
  {x | x = own ∨ ∃ i < site.count, x = start + i * each}

/- The scopes of what the copies inline. -/
def copyScopes (start each : Nat) : Set Nat :=
  {x | ∃ i < site.count,
    x ∈ Set.Ioo (start + i * each)
      (start + (i + 1) * each)}

variable {site}

/- Labels can be told from their new names, and back. -/
theorem Fresh.between_naming
    (hFresh : site.Fresh rename)
    {own start each : Nat}
    (hStart : own < start)
    (hEach : 0 < each)
    (own' : Nat) :
    (site.naming rename own own' start each).Between
      (site.ownScopes own start each) {own'} := by
  refine ⟨⟨?_, ?_⟩, ?_, ?_⟩
  -- The name alone tells which copy a label was in.
  · rintro a b k ⟨-, ha⟩ ⟨-, hb⟩
    rcases ha with ⟨haScope, haLabel, haName⟩ |
      ⟨i, hi, haScope, haLabel, haName⟩
    · rcases hb with ⟨hbScope, hbLabel, hbName⟩ |
        ⟨j, hj, hbScope, hbLabel, hbName⟩
      · exact Prod.ext (haName.symm.trans hbName)
          (haScope.trans hbScope.symm)
      · rw [← haName, hbName] at haLabel
        exact absurd haLabel
          (hFresh.unused j hj b.1 hbLabel)
    · rcases hb with ⟨hbScope, hbLabel, hbName⟩ |
        ⟨j, hj, hbScope, hbLabel, hbName⟩
      · rw [← hbName, haName] at hbLabel
        exact absurd hbLabel
          (hFresh.unused i hi a.1 haLabel)
      · rcases hFresh.distinct i hi j hj a.1 haLabel b.1
          hbLabel (haName.symm.trans hbName)
          with ⟨rfl, hSame⟩
        exact Prod.ext hSame (haScope.trans hbScope.symm)
  -- Back, the scope tells which copy it is in.
  · rintro k a b ⟨haOwn, ha⟩ ⟨hbOwn, hb⟩
    have hScope : a.2 = b.2 := haOwn.trans hbOwn.symm
    rcases ha with ⟨haScope, -, haName⟩ |
      ⟨i, -, haScope, -, haName⟩
    · rcases hb with ⟨-, -, hbName⟩ | ⟨j, -, hbScope, -, -⟩
      · exact Prod.ext (haName.trans hbName.symm) hScope
      · omega
    · rcases hb with ⟨hbScope, -, -⟩ |
        ⟨j, -, hbScope, -, hbName⟩
      · omega
      · have hCopy : i = j := by
          apply Nat.eq_of_mul_eq_mul_right hEach
          omega
        subst hCopy
        exact Prod.ext (haName.trans hbName.symm) hScope
  · rintro k k' ⟨-, ⟨hScope, -, -⟩ | ⟨i, hi, hScope, -, -⟩⟩
    · exact .inl hScope
    · exact .inr ⟨i, hi, hScope⟩
  · exact fun _ _ h => h.1

variable (site)

/- Copies are expanded one after another. -/
theorem ofStatements_copies
    (other : Script)
    (scope count : Nat)
    (b : Site) :
    ofStatements other tick size body scope
        ((List.range count).flatMap (site.copy rename)) b =
      (List.range count).flatMap fun i =>
        ofStatements other tick size body scope
          (site.copy rename i)
          { b with
            next := b.next.add ((usedByAll other size
              site.callee.body).times i) } := by
  induction count with
  | zero => rfl
  | succ count ih =>
      rw [List.range_succ, List.flatMap_append,
        List.flatMap_append, List.flatMap_singleton,
        List.flatMap_singleton, Meaning.ofStatements_append,
        ih, usedByAll_copies]

/- The scopes inlined by the copy at a scope. -/
theorem disjoint_copies
    (start each : Nat)
    (i j : Nat)
    (h : i < j) :
    Disjoint
      (Set.Ioo (start + i * each) (start + (i + 1) * each))
      (Set.Ioo (start + j * each)
        (start + (j + 1) * each)) := by
  have hLe := Nat.mul_le_mul_right each h
  rw [Set.disjoint_left]
  rintro x ⟨-, hFirst⟩ ⟨hSecond, -⟩
  simp only [Nat.succ_eq_add_one] at hLe
  omega

/- The parts of the body that calls. -/
theorem ofStatements_caller
    (scope : Nat)
    (a : Site) :
    let call :=
      a.next.add (usedByAll script size site.front)
    ofStatements script tick size body scope
        site.caller.body a =
      ofStatements script tick size body scope site.front
          a ++
        ((List.range site.count).flatMap (fun i =>
            body site.callee
              { a with
                next := call.add
                  ((size site.callee).times i) }) ++
          ofStatements script tick size body scope site.back
            { a with
              next := call.add
                ((size site.callee).times site.count) }) := by
  intro call
  rw [site.body_eq, Meaning.ofStatements_append,
    ofStatements]
  simp only [ofStatement, usedBy, site.find?_eq,
    Option.elim_some]
  rfl

/- The parts of the body with copies. -/
theorem ofStatements_inlinedCaller
    (other : Script)
    (scope : Nat)
    (b : Site) :
    let call := b.next.add (usedByAll other size site.front)
    ofStatements other tick size body scope
        (site.inlinedCaller rename).body b =
      ofStatements other tick size body scope site.front
          b ++
        (ofStatements other tick size body scope
            ((List.range site.count).flatMap
              (site.copy rename)) { b with next := call } ++
          ofStatements other tick size body scope site.back
            { b with
              next := call.add
                ((usedByAll other size
                  site.callee.body).times site.count) }) := by
  intro call
  rw [inlinedCaller, Meaning.ofStatements_append,
    Meaning.ofStatements_append, usedByAll_copies]

/- How the callee is expanded where it is called. -/
structure Expands
    (tick : Nat)
    (size inner : Function → Numbers)
    (body below : Function → Site → List Instruction) :
    Prop where
  size_eq :
    size site.callee =
      (usedByAll script inner site.callee.body).add ⟨0, 1⟩
  body_eq : ∀ a : Site,
    body site.callee a =
      ofStatements script tick inner below a.next.scopes
        site.callee.body
        { a with next := a.next.add ⟨0, 1⟩ }

section Changed

variable {inner : Function → Numbers}
variable {below : Function → Site → List Instruction}
variable {a b : Site}

variable {site}
variable {tick}

/- Each copy comes out like the body that it is a copy of. -/
theorem Expands.twins_copies
    (hExpands : site.Expands tick size inner body below)
    (hPairs : ∀ st ∈ site.callee.body,
      ∀ f ∈ Meaning.callees script st.action, ∀ f',
        site.Becomes rename f f' →
          Pairs inner size' below body' f f')
    (hBeside : a.Beside b)
    (own own' : Nat) :
    let each := (size site.callee).scopes
    Twins
      (site.naming rename own own' a.next.scopes each)
      (site.copyScopes a.next.scopes each)
      (b.next.scopesFrom
        ((usedByAll (site.inlined rename) size'
          site.callee.body).times site.count))
      ((List.range site.count).flatMap fun i =>
        body site.callee
          { a with
            next := a.next.add
              ((size site.callee).times i) })
      (ofStatements (site.inlined rename) tick size' body'
        own' ((List.range site.count).flatMap
          (site.copy rename)) b) := by
  intro each
  have hWithin := site.within_usedByAll
    fun st hst f hf f' hBecomes =>
      (hPairs st hst f hf f' hBecomes).within
  rw [ofStatements_copies]
  refine (twins_flatMap
    (disjoint_copies a.next.scopes each)
    (fun _ _ => Numbers.disjoint_times b.next _) ?_).weaken
      le_rfl subset_rfl (Numbers.scopesFrom_times _ _ _)
  intro i hi
  have hEach := hExpands.size_eq
  have hPaths :
      ((usedByAll (site.inlined rename) size'
          site.callee.body).times i).paths =
        ((size site.callee).times i).paths := by
    rw [hEach]
    exact (hWithin.add_scope.times i).paths_eq
  have hStart := hBeside.add hPaths
  have hOpened : Site.Beside
      { a with
        next := (a.next.add
          ((size site.callee).times i)).add ⟨0, 1⟩ }
      { b with
        next := b.next.add
          ((usedByAll (site.inlined rename) size'
            site.callee.body).times i) } :=
    ⟨hStart.path, hStart.zOrder, hStart.paths⟩
  have hNames : ∀ label ∈ Statement.labels site.callee.body,
      site.naming rename own own' a.next.scopes each
        (label, (a.next.add
          ((size site.callee).times i)).scopes)
        (rename i label, own') :=
    fun _ hLabel => ⟨rfl, .inr ⟨i, hi, rfl, hLabel, rfl⟩⟩
  rw [hExpands.body_eq]
  refine (site.twins_ofStatements tick (rename i) hNames
    hPairs hOpened).weaken le_rfl ?_ subset_rfl
  rintro x ⟨hFirst, hSecond⟩
  have hScopes :
      (size site.callee).scopes =
        (usedByAll script inner
          site.callee.body).scopes + 1 :=
    congrArg Numbers.scopes hEach
  simp only [Numbers.add, Numbers.times] at hFirst hSecond
  simp only [Set.mem_Ioo, each, Nat.succ_mul]
  omega

/- Own scopes are not among those that are inlined. -/
theorem disjoint_ownScopes
    {own start each : Nat}
    (hStart : own < start)
    (hEach : 0 < each)
    {A B : Set Nat}
    (hBefore : ∀ x ∈ A, own < x ∧ x < start)
    (hAfter : ∀ x ∈ B, start + site.count * each ≤ x) :
    Disjoint (site.ownScopes own start each)
      (A ∪ (site.copyScopes start each ∪ B)) := by
  have hCopies : ∀ x ∈ site.copyScopes start each,
      x ∉ site.ownScopes own start each := by
    rintro x ⟨i, -, hFirst, hSecond⟩
      (rfl | ⟨j, -, rfl⟩)
    · omega
    · have hLow : i * each < j * each := by
        omega
      have hHigh : j * each < (i + 1) * each := by
        omega
      have hLess := Nat.lt_of_mul_lt_mul_right hLow
      have hMore := Nat.lt_of_mul_lt_mul_right hHigh
      omega
  rw [Set.disjoint_right]
  rintro x (hx | hx | hx)
  · have hPlace := hBefore x hx
    rintro (rfl | ⟨j, -, rfl⟩)
    · omega
    · omega
  · exact hCopies x hx
  · have hPlace := hAfter x hx
    rintro (rfl | ⟨j, hj, rfl⟩)
    · omega
    · have hLe := Nat.mul_le_mul_right each hj
      rw [Nat.succ_mul] at hLe
      omega

/- The scopes inlined by the copies lie behind the call. -/
theorem copyScopes_subset
    (next used : Numbers) :
    site.copyScopes next.scopes used.scopes ⊆
      next.scopesFrom (used.times site.count) := by
  rintro x ⟨i, hi, hFirst, hSecond⟩
  have hLe := Nat.mul_le_mul_right used.scopes hi
  simp only [Numbers.scopesFrom, Numbers.times, Set.mem_Ico,
    Nat.succ_eq_add_one] at hLe ⊢
  omega

/- So do the scopes of the copies themselves. -/
theorem ownScopes_subset
    (own : Nat)
    {next used : Numbers}
    (hUsed : 0 < used.scopes) :
    site.ownScopes own next.scopes used.scopes ⊆
      {own} ∪ next.scopesFrom (used.times site.count) := by
  rintro x (rfl | ⟨i, hi, rfl⟩)
  · exact .inl rfl
  · right
    have hLe := Nat.mul_le_mul_right used.scopes hi
    rw [Nat.succ_mul] at hLe
    simp only [Numbers.scopesFrom, Numbers.times,
      Set.mem_Ico]
    omega

variable (tick)

/- Statements around the call keep their labels. -/
theorem twins_around
    (hPairs : ∀ st ∈ site.caller.body,
      ∀ f ∈ Meaning.callees script st.action, ∀ f',
        site.Becomes rename f f' →
          Pairs size size' body body' f f')
    {sts : List Statement}
    (hsts : ∀ st ∈ sts, st ∈ site.caller.body)
    (hBeside : a.Beside b)
    (own own' start each : Nat) :
    Twins (site.naming rename own own' start each)
      (a.next.scopesFrom (usedByAll script size sts))
      (b.next.scopesFrom
        (usedByAll (site.inlined rename) size' sts))
      (ofStatements script tick size body own sts a)
      (ofStatements (site.inlined rename) tick size' body'
        own' sts b) := by
  have hNames : ∀ label ∈ Statement.labels sts,
      site.naming rename own own' start each (label, own)
        (id label, own') := by
    intro label hLabel
    rcases List.mem_filterMap.mp hLabel with ⟨st, hst, h⟩
    exact ⟨rfl, .inl ⟨rfl, List.mem_filterMap.mpr
      ⟨st, hsts st hst, h⟩, rfl⟩⟩
  have hAll := site.twins_ofStatements tick id hNames
    (fun st hst => hPairs st (hsts st hst)) hBeside
  rwa [map_relabel_id] at hAll

variable {tick}

section Parts

variable (hExpands : site.Expands tick size inner body below)
variable
  (hPairs : ∀ st ∈ site.caller.body,
    ∀ f ∈ Meaning.callees script st.action, ∀ f',
      site.Becomes rename f f' →
        Pairs size size' body body' f f')
variable
  (hBelow : ∀ st ∈ site.callee.body,
    ∀ f ∈ Meaning.callees script st.action, ∀ f',
      site.Becomes rename f f' →
        Pairs inner size' below body' f f')

include hExpands hPairs hBelow

/- The parts of both bodies, one behind the other. -/
theorem Expands.twins_parts
    (hBeside : a.Beside b)
    (own own' : Nat) :
    let each := size site.callee
    let call := a.next.add (usedByAll script size site.front)
    Twins
      (site.naming rename own own' call.scopes each.scopes)
      (a.next.scopesFrom
          (usedByAll script size site.front) ∪
        (site.copyScopes call.scopes each.scopes ∪
          (call.add (each.times site.count)).scopesFrom
            (usedByAll script size site.back)))
      (b.next.scopesFrom
        (usedByAll (site.inlined rename) size'
          (site.inlinedCaller rename).body))
      (ofStatements script tick size body own
        site.caller.body a)
      (ofStatements (site.inlined rename) tick size' body'
        own' (site.inlinedCaller rename).body b) := by
  intro each call
  have hFrontUsed := site.within_usedByAll
    fun st hst f hf f' hBecomes =>
      (hPairs st (site.mem_body_of_mem_front hst) f hf f'
        hBecomes).within
  have hCopyUsed := site.within_usedByAll
    fun st hst f hf f' hBecomes =>
      (hBelow st hst f hf f' hBecomes).within
  have hPaths :
      ((usedByAll (site.inlined rename) size'
          site.callee.body).times site.count).paths =
        ((size site.callee).times site.count).paths := by
    rw [hExpands.size_eq]
    exact (hCopyUsed.add_scope.times site.count).paths_eq
  have hCall := hBeside.add hFrontUsed.paths_eq
  have hFront := twins_around tick hPairs
    (fun st hst => site.mem_body_of_mem_front hst) hBeside
    own own' call.scopes each.scopes
  have hCopies := hExpands.twins_copies hBelow hCall own own'
  have hBack := twins_around tick hPairs
    (fun st hst => site.mem_body_of_mem_back hst)
    (hCall.add hPaths) own own' call.scopes each.scopes
  have hInlined :
      site.copyScopes call.scopes each.scopes ⊆
        call.scopesFrom (each.times site.count) :=
    copyScopes_subset call each
  have hMiddle := hCopies.append hBack
    ((Numbers.disjoint_scopesFrom call _ _).mono_left
      hInlined)
    (Numbers.disjoint_scopesFrom _ _ _)
  rw [← Numbers.scopesFrom_add] at hMiddle
  have hAfter := Set.union_subset_union_left
    ((call.add (each.times site.count)).scopesFrom
      (usedByAll script size site.back)) hInlined
  rw [← Numbers.scopesFrom_add] at hAfter
  have hAll := hFront.append hMiddle
    ((Numbers.disjoint_scopesFrom a.next _ _).mono_right
      hAfter)
    (Numbers.disjoint_scopesFrom _ _ _)
  rwa [← Numbers.scopesFrom_add, ← usedByAll_inlinedCaller,
    ← ofStatements_inlinedCaller, ← ofStatements_caller]
    at hAll

/- The body that calls comes out like that with copies. -/
theorem Expands.twins_changed
    (hFresh : site.Fresh rename)
    (hBeside : a.Beside b) :
    Twins ⊥
      (a.next.scopesFrom
        ((usedByAll script size
          site.caller.body).add ⟨0, 1⟩))
      (b.next.scopesFrom
        ((usedByAll (site.inlined rename) size'
          (site.inlinedCaller rename).body).add ⟨0, 1⟩))
      (ofStatements script tick size body a.next.scopes
        site.caller.body
        { a with next := a.next.add ⟨0, 1⟩ })
      (ofStatements (site.inlined rename) tick size' body'
        b.next.scopes (site.inlinedCaller rename).body
        { b with next := b.next.add ⟨0, 1⟩ }) := by
  have hEach : 0 < (size site.callee).scopes := by
    rw [hExpands.size_eq]
    exact Nat.succ_pos _
  have hStart :
      a.next.scopes <
        ((a.next.add ⟨0, 1⟩).add
          (usedByAll script size site.front)).scopes := by
    simp only [Numbers.add]
    omega
  have hParts := hExpands.twins_parts hPairs hBelow
    hBeside.opened a.next.scopes b.next.scopes
  have hOwn := hFresh.between_naming hStart hEach
    b.next.scopes
  refine (hParts.close hOwn
    (disjoint_ownScopes hStart hEach ?_ ?_)
    (disjoint_own _ _)).weaken le_rfl ?_
      (insert_scopesFrom _ _)
  · rintro x ⟨hFirst, hSecond⟩
    exact ⟨hFirst, hSecond⟩
  · rintro x ⟨hFirst, -⟩
    exact hFirst
  · apply subset_trans ?_ (insert_scopesFrom _ _)
    rw [usedByAll_caller, Numbers.scopesFrom_add,
      Numbers.scopesFrom_add]
    rintro x (hOwn | hFront | hCopy | hBack)
    · rcases ownScopes_subset a.next.scopes hEach hOwn
        with hSelf | hCopy
      · exact .inl hSelf
      · exact .inr (.inr (.inl hCopy))
    · exact .inr (.inl hFront)
    · exact .inr (.inr (.inl (copyScopes_subset _ _ hCopy)))
    · exact .inr (.inr (.inr hBack))

end Parts

end Changed

------------------------------------------------------------
-- Whole Expansions
------------------------------------------------------------

variable {site}

/- A function and its counterpart come out alike. -/
theorem Becomes.twins_instructions
    (tick : Nat)
    (hFresh : site.Fresh rename)
    {depth deeper : Nat}
    {f f' : Function}
    (hBecomes : site.Becomes rename f f')
    (hFits : Meaning.Fits script depth f)
    (hDepth : depth ≤ deeper)
    {a b : Site}
    (hBeside : a.Beside b) :
    Twins ⊥ (a.next.scopesFrom (Meaning.used script depth f))
      (b.next.scopesFrom
        (Meaning.used (site.inlined rename) deeper f'))
      (Meaning.instructions script tick depth f a)
      (Meaning.instructions (site.inlined rename) tick deeper
        f' b) := by
  -- As with numbers, what the callee inlines is one level
  -- higher in the new script.
  induction depth using Nat.strongRecOn
    generalizing deeper f f' a b with
  | ind depth ih =>
      have hPairs {lower lower' : Nat} (hLower : lower < depth)
          (hLess : lower ≤ lower') {sts : List Statement}
          (hInner : ∀ st ∈ sts,
            ∀ g ∈ Meaning.callees script st.action,
              Meaning.Fits script lower g) :
          ∀ st ∈ sts,
            ∀ g ∈ Meaning.callees script st.action, ∀ g',
              site.Becomes rename g g' →
                Pairs (Meaning.used script lower)
                  (Meaning.used (site.inlined rename) lower')
                  (Meaning.instructions script tick lower)
                  (Meaning.instructions (site.inlined rename)
                    tick lower') g g' := by
        intro st hst g hg g' hBecomes
        have hFits := hInner st hst g hg
        exact ⟨hBecomes.within_used hFits hLess,
          fun a b => ih lower hLower hBecomes hFits hLess⟩
      cases depth with
      | zero => cases hFits
      | succ depth =>
          rcases Nat.exists_eq_add_of_le' (Nat.le_trans
            (Nat.le_add_left 1 depth) hDepth)
            with ⟨deeper, rfl⟩
          have hLess := Nat.le_of_succ_le_succ hDepth
          have hOwn := hPairs (Nat.lt_succ_self depth) hLess
            hFits
          cases hBecomes with
          | kept =>
              exact site.twins_kept tick hOwn hBeside
          | changed =>
              have hCallee := hFits _ site.call_mem_body _
                site.callee_mem_callees
              cases depth with
              | zero => cases hCallee
              | succ depth =>
                  have hExpands : site.Expands tick
                      (Meaning.used script (depth + 1))
                      (Meaning.used script depth)
                      (Meaning.instructions script tick
                        (depth + 1))
                      (Meaning.instructions script tick
                        depth) :=
                    ⟨rfl, fun _ => rfl⟩
                  have hBelow := hPairs (by omega)
                    (Nat.le_of_succ_le hLess) hCallee
                  exact hExpands.twins_changed hOwn hBelow
                    hFresh hBeside

/- Fewer bodies are expanded, to as many instructions. -/
theorem Becomes.work_le
    (hFresh : site.Fresh rename)
    {depth : Nat}
    {f f' : Function}
    (hBecomes : site.Becomes rename f f')
    (hFits : Meaning.Fits script depth f) :
    Meaning.work (site.inlined rename) depth f' ≤
      Meaning.work script depth f := by
  have hBeside : firstSite.Beside firstSite :=
    ⟨rfl, rfl, rfl⟩
  have hTwins := hBecomes.twins_instructions 0 hFresh hFits
    (Nat.le_refl depth) hBeside
  have hUsed := hBecomes.within_used hFits
    (Nat.le_refl depth)
  rw [← Meaning.length_instructions_add _ 0 _ _ firstSite,
    ← Meaning.length_instructions_add _ 0 _ _ firstSite,
    hTwins.length_eq]
  exact Nat.add_le_add_left hUsed.scopes_le _

end Script.CallSite

namespace Script

section Show

variable {script : Script}
variable {source : SourceText}
variable {device : Device}
variable {expanded : Expanded}

/- The new script expands too. -/
theorem CallSite.exists_expanded
    (h : script.expand source device = .ok expanded)
    {site : script.CallSite}
    {rename : Nat → String → String}
    (hFresh : site.Fresh rename)
    (source' : SourceText) :
    ∃ expanded',
      (site.inlined rename).expand source' device =
        .ok expanded' := by
  rcases expand_yields h with ⟨first, hFirst, hFits, -⟩
  rcases (Expander.errors_run_eq_zero_iff _).mp
    (expand_eq_ok h).1
    with ⟨start, hStart, hAdmits, hWork⟩
  cases hStart.symm.trans hFirst
  rcases site.exists_inlined rename hStart
    with ⟨start', hStart', hBecomes⟩
  have hDepth :
      Expander.maxDepth
          ⟨site.inlined rename, source', device⟩ =
        Expander.maxDepth ⟨script, source, device⟩ :=
    congrArg (· + 1) (site.length_functions_inlined rename)
  rw [exists_expanded_iff, Expander.errors_run_eq_zero_iff]
  refine ⟨start', hStart', ?_, ?_⟩
  · exact hBecomes.admits hAdmits (Nat.le_of_eq hDepth.symm)
      (List.Subset.refl [])
  · rw [hDepth]
    exact Nat.le_trans (Nat.add_le_add_right
      (hBecomes.work_le hFresh hFits) 2) hWork

/- The instructions of both scripts are twins. -/
theorem CallSite.exists_relabel
    {expanded' : Expanded}
    {source' : SourceText}
    (h : script.expand source device = .ok expanded)
    {site : script.CallSite}
    {rename : Nat → String → String}
    (hFresh : site.Fresh rename)
    (h' : (site.inlined rename).expand source' device =
      .ok expanded') :
    ∃ σ, Function.Injective σ ∧
      expanded'.instructions =
        expanded.instructions.map
          (Instruction.relabel σ) := by
  rcases expand_yields h with ⟨start, hStart, hFits, hAll⟩
  rcases expand_yields h' with ⟨start', hStart', -, hAll'⟩
  rcases site.exists_inlined rename hStart
    with ⟨other, hOther, hBecomes⟩
  cases hStart'.symm.trans hOther
  rw [site.length_functions_inlined] at hAll'
  rw [(hAll _ (Nat.lt_succ_self _)).2,
    (hAll' _ (Nat.lt_succ_self _)).2, hBecomes.span_eq]
  have hTwins := Meaning.twins_activated
    (fun _ _ => hBecomes.twins_instructions device.tickMillis
      hFresh hFits (Nat.le_refl _))
    (rfl : Numbers.zero.paths = Numbers.zero.paths) none 0 0
    start.span
  exact hTwins.exists_relabel

/-
  Writing out a call, with new names for the labels of the
  copies, gives a script that expands, and to a show that is
  the same in every part.
-/
theorem inlining_keeps_show
    {limits : Limits}
    {finished : Show}
    (hExpanded : script.expand source device = .ok expanded)
    (hBuilt :
      Show.build ⟨device, limits⟩ expanded.instructions =
        .ok finished)
    (site : script.CallSite)
    {rename : Nat → String → String}
    (hFresh : site.Fresh rename)
    (source' : SourceText) :
    ∃ expanded',
      (site.inlined rename).expand source' device =
          .ok expanded' ∧
        Show.build ⟨device, limits⟩
          expanded'.instructions = .ok finished := by
  rcases CallSite.exists_expanded hExpanded hFresh source'
    with ⟨expanded', hInlined⟩
  refine ⟨expanded', hInlined, ?_⟩
  rcases CallSite.exists_relabel hExpanded hFresh hInlined
    with ⟨σ, hσ, hInstructions⟩
  rw [hInstructions]
  exact (Show.alike_build hσ ⟨device, limits⟩
    expanded.instructions).eq_ok hBuilt

end Show

------------------------------------------------------------
-- A Script With A Call In A Loop
------------------------------------------------------------

/- A loop around a function that has a loop of its own. -/
def rounds : Script where
  functions :=
    [nestedFunction entryName
      [.here ⟨"a", .origin⟩,
       .call ⟨"round", .origin⟩ 2,
       .goto ⟨"a", .origin⟩],
     nestedFunction "round"
      [.here ⟨"a", .origin⟩,
       .callAsync ⟨"flash", .origin⟩ (some 1),
       .pause ⟨20, .millis, .origin⟩,
       .goto ⟨"a", .origin⟩],
     nestedFunction "flash"
      [.glow ⟨[1], .origin⟩ ⟨255, 0, 0, 9⟩]]

def roundsCall : rounds.CallSite where
  before := []
  caller := nestedFunction entryName
    [.here ⟨"a", .origin⟩,
     .call ⟨"round", .origin⟩ 2,
     .goto ⟨"a", .origin⟩]
  after := rounds.functions.drop 1
  front := [⟨.here ⟨"a", .origin⟩, .origin⟩]
  name := ⟨"round", .origin⟩
  count := 2
  span := .origin
  back := [⟨.goto ⟨"a", .origin⟩, .origin⟩]
  callee := nestedFunction "round"
    [.here ⟨"a", .origin⟩,
     .callAsync ⟨"flash", .origin⟩ (some 1),
     .pause ⟨20, .millis, .origin⟩,
     .goto ⟨"a", .origin⟩]
  functions_eq := rfl
  body_eq := rfl
  find?_eq := by decide
  one_le_count := by decide

/- A label with the number of its copy. -/
def numbered (i : Nat) (label : String) : String :=
  label ++ "/" ++ toString i

theorem fresh_numbered : roundsCall.Fresh numbered where
  distinct := by decide +kernel
  unused := by decide +kernel

def roundsDevice : Device :=
  { tickMillis := 10
    ramBytes := 4096
    ledCount := 1
    protocol := protocolVersion }

def roundsInstructions : List Instruction :=
  (rounds.expand ⟨"show", ""⟩
    roundsDevice).toOption.elim [] Expanded.instructions

theorem isOk_expand_rounds :
    (rounds.expand ⟨"show", ""⟩ roundsDevice).isOk =
      true := by
  decide +kernel

theorem ids_rounds :
    Path.ids roundsInstructions = [0, 1, 2] := by
  have hPaths :
      roundsInstructions.filterMap Instruction.path =
        [0, 0, 0, 1, 1, 0, 0, 0, 0, 2, 2, 0, 0, 0, 0] := by
    decide +kernel
  rw [Path.ids, hPaths]
  cbv

theorem order_rounds :
    Path.order roundsInstructions =
      [(0, 0), (1, 1), (1, 2)] := by
  have hKeys :
      Path.keys roundsInstructions =
        [(0, 0), (1, 1), (1, 2)] := by
    rw [Path.keys, ids_rounds]
    decide +kernel
  rw [Path.order, hKeys]
  apply List.mergeSort_of_pairwise
  decide

theorem isOk_build_rounds :
    (Show.build ⟨roundsDevice, {}⟩
      roundsInstructions).isOk = true := by
  simp only [Show.build, Show.buildWith,
    Placed.ofInstructions, Path.schedule, ids_rounds,
    order_rounds, Path.finalize, Path.resolveAll,
    Path.resolve_eq]
  decide +kernel

theorem inlining_keeps_show_rounds :
    ∃ expanded finished,
      rounds.expand ⟨"show", ""⟩ roundsDevice =
          .ok expanded ∧
        Show.build ⟨roundsDevice, {}⟩
            expanded.instructions = .ok finished ∧
        roundsCall.Fresh numbered ∧
        ∃ expanded',
          (roundsCall.inlined numbered).expand
              ⟨"written out", ""⟩ roundsDevice =
            .ok expanded' ∧
          Show.build ⟨roundsDevice, {}⟩
            expanded'.instructions = .ok finished := by
  rcases Success.exists_of_isOk isOk_expand_rounds
    with ⟨expanded, hExpanded⟩
  have hIs :
      roundsInstructions = expanded.instructions := by
    rw [roundsInstructions, hExpanded]
    rfl
  rcases Success.exists_of_isOk isOk_build_rounds
    with ⟨finished, hBuilt⟩
  rw [hIs] at hBuilt
  exact ⟨expanded, finished, hExpanded, hBuilt,
    fresh_numbered, inlining_keeps_show hExpanded hBuilt
      roundsCall fresh_numbered ⟨"written out", ""⟩⟩

end Script

end LightShow
