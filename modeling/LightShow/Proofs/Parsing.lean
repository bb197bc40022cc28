import LightShow.Proofs.Scopes
import LightShow.Script.Parser

/-
  What reading a source text puts into a script.

  Statements get into a script in one way only: a line is
  read and its statement put into the function opened last.
  What holds of every statement that can be read therefore
  holds of every statement of a script, whatever errors the
  text has.

  Key definitions include:
    * `Script.AllStatements`
    * `Reader.Gives`

  Main statements:
    * `Reader.Gives.bind`
    * `Script.allStatements_ofSource`
    * `Script.callsInline_ofSource`
-/

namespace LightShow

------------------------------------------------------------
-- Statements In A Script
------------------------------------------------------------

namespace Script

/- Every statement of every function has a property. -/
def AllStatements
    (P : Statement → Prop)
    (script : Script) : Prop :=
  ∀ f ∈ script.functions, ∀ st ∈ f.body, P st

variable {P : Statement → Prop}

theorem allStatements_pushLast
    {st : Statement}
    (hStatement : P st)
    {fs : List Function}
    (h : ∀ f ∈ fs, ∀ st ∈ f.body, P st) :
    ∀ f ∈ Function.pushLast st fs, ∀ st ∈ f.body, P st := by
  induction fs using Function.pushLast.induct with
  | case1 =>
      intro f hf
      cases hf
  | case2 f =>
      intro g hg other hOther
      rw [Function.pushLast, List.mem_singleton] at hg
      subst hg
      rcases List.mem_append.mp hOther with hOld | hNew
      · exact h f (List.mem_cons_self ..) other hOld
      · exact List.mem_singleton.mp hNew ▸ hStatement
  | case3 f g fs ih =>
      rcases List.forall_mem_cons.mp h with ⟨hFirst, hRest⟩
      rw [Function.pushLast]
      exact List.forall_mem_cons.mpr ⟨hFirst, ih hRest⟩

/- An entry adds at most the statement that it is. -/
theorem AllStatements.add
    {script : Script}
    (h : script.AllStatements P)
    {entry : Entry}
    (hEntry : ∀ st, entry = .statement st → P st) :
    (script.add entry).AllStatements P := by
  cases entry with
  | setting d => exact h
  | aliasing a => exact h
  | header name =>
      intro f hf st hst
      rcases List.mem_append.mp hf with hf | hf
      · exact h f hf st hst
      · rw [List.mem_singleton.mp hf] at hst
        cases hst
  | statement st =>
      exact allStatements_pushLast (hEntry st rfl) h

end Script

------------------------------------------------------------
-- Statements That Are Read
------------------------------------------------------------

namespace Reader

/- Whatever a reader reads has a property. -/
def Gives
    {α : Type}
    (P : α → Prop)
    (p : Reader α) : Prop :=
  ∀ c a d, p c = .ok (a, d) → P a

theorem gives_anything
    {α : Type}
    (p : Reader α) :
    Gives (fun _ => True) p :=
  fun _ _ _ _ => trivial

theorem gives_pure
    {α : Type}
    {P : α → Prop}
    {a : α}
    (h : P a) :
    Gives P (pure a : Reader α) := by
  intro c b d hPure
  cases hPure
  exact h

theorem gives_ofExcept
    {α : Type}
    {P : α → Prop}
    {r : Except LineError α}
    (h : ∀ a, r = .ok a → P a) :
    Gives P (ofExcept r) := by
  intro c a d hRead
  cases r with
  | error e => cases hRead
  | ok b =>
      cases hRead
      exact h _ rfl

theorem Gives.bind
    {α β : Type}
    {P : α → Prop}
    {Q : β → Prop}
    {p : Reader α}
    {f : α → Reader β}
    (hp : Gives P p)
    (hf : ∀ a, P a → Gives Q (f a)) :
    Gives Q (p >>= f) := by
  intro c b e h
  rcases bind_eq_ok h with ⟨a, d, hFirst, hSecond⟩
  exact hf a (hp c a d hFirst) d b e hSecond

/- What comes last decides. -/
theorem Gives.after
    {α β : Type}
    {Q : β → Prop}
    {p : Reader α}
    {f : α → Reader β}
    (hf : ∀ a, Gives Q (f a)) :
    Gives Q (p >>= f) :=
  (gives_anything p).bind fun a _ => hf a

end Reader

/- The action of a statement has a property. -/
def Entry.Satisfies
    (P : Action → Prop)
    (entry : Entry) : Prop :=
  ∀ st, entry = .statement st → P st.action

namespace Reader

variable {P : Action → Prop}

theorem gives_setting
    (start : Span) :
    Gives (Entry.Satisfies P) (setting start) := by
  refine .after fun _ => .after fun _ => .after fun _ => ?_
  refine .after fun _ => .after fun _ => .after fun _ => ?_
  exact gives_pure nofun

theorem gives_aliasLine
    (start : Span) :
    Gives (Entry.Satisfies P) (aliasLine start) := by
  refine .after fun _ => .after fun _ => .after fun _ => ?_
  refine .after fun _ => .after fun _ => .after fun _ => ?_
  exact gives_pure nofun

theorem gives_header
    (name : Name) :
    Gives (Entry.Satisfies P) (header name) :=
  .after fun _ => gives_pure nofun

/- A statement line holds the action that was read. -/
theorem gives_statement
    {start : Token}
    (h : Gives P (action start)) :
    Gives (Entry.Satisfies P) (statement start) := by
  refine .after fun _ => h.bind fun deed hDeed => ?_
  refine .after fun _ => .after fun _ => ?_
  apply gives_pure
  intro st hStatement
  cases hStatement
  exact hDeed

theorem gives_refusal
    (e : LineError) :
    Gives (Entry.Satisfies P) (ofExcept (.error e)) :=
  gives_ofExcept nofun

end Reader

/- Lines hold only actions that were read. -/
theorem Entry.gives_read
    {P : Action → Prop}
    (h : ∀ start, Reader.Gives P (Reader.action start))
    (inFunction : Bool)
    (t : Token) :
    Reader.Gives (Entry.Satisfies P)
      (Entry.read inFunction t) := by
  unfold Entry.read
  split
  · exact Reader.gives_setting t.span
  · exact Reader.gives_aliasLine t.span
  · exact Reader.gives_header _
  · split
    · split
      · exact Reader.gives_statement (h t)
      · exact Reader.gives_refusal _
    · exact Reader.gives_refusal _
  · exact Reader.gives_refusal _

------------------------------------------------------------
-- Whole Source Texts
------------------------------------------------------------

/- What every turn keeps, reading to the end keeps. -/
theorem Draft.run_induction
    {P : Draft → Prop}
    {source : SourceText}
    {last : Token}
    {ts : List Token}
    (hTurn : ∀ d t rest, t :: rest <:+ ts → P d →
      P (d.turn source last t rest).1)
    {d : Draft}
    (h : P d) :
    P (d.run source last ts) := by
  fun_induction run source last d ts with
  | case1 d => exact h
  | case2 d t rest hEnd => exact h
  | case3 d t rest hEnd hFull => exact h
  | case4 d t rest hEnd hRoom ih =>
      have hSuffix := (turn_suffix source last d t rest).trans
        (List.suffix_cons t rest)
      refine ih ?_ (hTurn d t rest List.suffix_rfl h)
      exact fun d t rest hts => hTurn d t rest
        (hts.trans hSuffix)

namespace Script

variable {P : Action → Prop}

/- One more turn keeps what holds of every statement. -/
theorem allStatements_turn
    (hRead : ∀ start, Reader.Gives P (Reader.action start))
    {source : SourceText}
    {last : Token}
    {d : Draft}
    (h : d.script.AllStatements fun st => P st.action)
    (t : Token)
    (rest : List Token) :
    (d.turn source last t rest).1.script.AllStatements
      fun st => P st.action := by
  unfold Draft.turn
  split
  · rename_i entry c hEntry
    have hAdd :
        (d.script.add entry).AllStatements fun st =>
          P st.action :=
      h.add (Entry.gives_read hRead _ _ _ _ _ hEntry)
    unfold Draft.accept
    simp only
    split <;> exact hAdd
  · exact h

/- Whatever a text says, it is read action by action. -/
theorem allStatements_ofSource
    (hRead : ∀ start, Reader.Gives P (Reader.action start))
    (source : SourceText) :
    (ofSource source).script.AllStatements fun st =>
      P st.action := by
  unfold ofSource ofTokens readTokens
  refine Draft.run_induction
    (P := fun d => d.script.AllStatements fun st =>
      P st.action) ?_ ?_
  · exact fun d t rest _ h => allStatements_turn hRead h t rest
  · exact nofun

theorem repeatCount_ne_zero
    {option : Option (Nat × Span)}
    {count : Nat}
    (h : Reader.repeatCount option = .ok count) :
    count ≠ 0 := by
  unfold Reader.repeatCount at h
  split at h
  · cases h
    exact Nat.one_ne_zero
  · split at h
    · rename_i hRange
      cases h
      exact Nat.ne_zero_of_lt hRange.1
    · cases h

/- A call that was read inlines its function. -/
theorem gives_repeated
    (start : Token) :
    Reader.Gives
      (fun deed => ∀ name count,
        deed = Action.call name count → count ≠ 0)
      (Reader.action start) := by
  unfold Reader.action
  split
  · exact .after fun _ => .after fun _ =>
      Reader.gives_pure nofun
  · refine .after fun _ => .after fun _ => .after fun _ => ?_
    refine .after fun _ => .after fun _ => .after fun _ => ?_
    exact Reader.gives_pure nofun
  · exact .after fun _ => Reader.gives_pure nofun
  · exact .after fun _ => Reader.gives_pure nofun
  · exact .after fun _ => Reader.gives_pure nofun
  · refine .after fun name => .after fun option => ?_
    refine (Reader.gives_ofExcept (P := (· ≠ 0)) ?_).bind ?_
    · exact fun _ hCount => repeatCount_ne_zero hCount
    · intro count hCount
      apply Reader.gives_pure
      rintro _ _ ⟨⟩
      exact hCount
  · exact .after fun _ => .after fun _ => .after fun _ =>
      Reader.gives_pure nofun
  · exact Reader.gives_ofExcept nofun

/- Scripts that are read call nothing zero times. -/
theorem callsInline_ofSource
    (source : SourceText) :
    (ofSource source).script.CallsInline :=
  allStatements_ofSource gives_repeated source

end Script

end LightShow
