import Mathlib
import LightShow.Device.File
import LightShow.Proofs.Success

/-
  The keys of a device file.

  A file is either a single table `device`, whose keys are
  meant, or all keys at its top are. It is refused if one of
  these has no value that a setting can have. Otherwise there
  is one setting for each key, in the order of keys.

  This takes a key `device` at the top to be a table. One
  with another value is passed over: the file is read as if
  the key were not there.

  Key definitions include:
    * `Toml.Value.Spells`
    * `Device.Subject`
    * `Device.Lists`

  Main statements:
    * `Device.settingTable_cases`
    * `Device.settingTable_of_stray`
    * `Device.files_keep_their_keys`
    * `Device.stray_device_is_dropped`
-/

namespace LightShow

------------------------------------------------------------
-- What A File Says
------------------------------------------------------------

namespace Toml

/- The text of a value that a setting can have. -/
inductive Value.Spells : Value → String → Prop
  | string (text : String) : Spells (.string text) text
  | integer (n : Int) : Spells (.integer n) (toString n)
  | boolean (b : Bool) : Spells (.boolean b) (toString b)

namespace Table

/- The keys of a table, in the order of writing. -/
def keys (t : Table) : List String :=
  t.map Prod.fst

/- No key comes twice, neither at the top nor in a table. -/
structure Distinct (t : Table) : Prop where
  top : t.keys.Nodup
  inner : ∀ key origin entries,
    (key, Value.table origin entries) ∈ t →
      (keys entries).Nodup

end Table

end Toml

namespace Device

/-
  The entries that a file is about: those of its table
  `device` if it has nothing else, and else its own.
-/
inductive Subject : Toml.Table → Toml.Table → Prop
  | single
      (origin : Toml.Origin)
      (entries : Toml.Table) :
      Subject [("device", .table origin entries)] entries
  | flat
      {t : Toml.Table}
      (h : ∀ origin entries,
        t ≠ [("device", .table origin entries)]) :
      Subject t t

/- One setting for each entry, in the order of keys. -/
structure Lists
    (entries : Toml.Table)
    (settings : List (String × String)) : Prop where
  ordered : (settings.map Prod.fst).Pairwise (· < ·)
  keys : (settings.map Prod.fst).Perm entries.keys
  spelled : ∀ x ∈ settings, ∃ value,
    (x.1, value) ∈ entries ∧ value.Spells x.2

------------------------------------------------------------
-- Settings Of Entries
------------------------------------------------------------

theorem valueText?_eq_some_iff
    {value : Toml.Value}
    {text : String} :
    valueText? value = some text ↔ value.Spells text := by
  constructor
  · intro h
    cases value with
    | string s =>
        cases h
        exact .string _
    | integer n =>
        cases h
        exact .integer _
    | boolean b =>
        cases h
        exact .boolean _
    | _ => cases h
  · rintro (_ | _ | _) <;> rfl

/- A setting has the key and the text of its entry. -/
theorem settingOfEntry_eq_ok_iff
    {entry : String × Toml.Value}
    {setting : String × String} :
    settingOfEntry entry = .ok setting ↔
      setting.1 = entry.1 ∧ entry.2.Spells setting.2 := by
  rcases setting with ⟨key, text⟩
  rw [← valueText?_eq_some_iff, settingOfEntry]
  cases hText : valueText? entry.2 with
  | none => simp
  | some found => simp [eq_comm]

/- All entries are settings if each one has a text. -/
theorem exists_mapM_eq_ok_iff
    (entries : Toml.Table) :
    (∃ settings,
        entries.mapM settingOfEntry = .ok settings) ↔
      ∀ x ∈ entries, ∃ text, x.2.Spells text := by
  constructor
  · rintro ⟨settings, h⟩ x hx
    have hPairs := (Success.mapM_eq_ok h).flip
    rcases Success.exists_of_forall₂ hPairs x hx
      with ⟨setting, -, hSetting⟩
    exact ⟨setting.2, (settingOfEntry_eq_ok_iff.mp hSetting).2⟩
  · intro h
    cases hAll : entries.mapM settingOfEntry with
    | ok settings => exact ⟨settings, rfl⟩
    | error e =>
        rcases Success.mapM_eq_error hAll with ⟨x, hx, hFault⟩
        rcases h x hx with ⟨text, hText⟩
        have hOk : settingOfEntry x = .ok (x.1, text) :=
          settingOfEntry_eq_ok_iff.mpr ⟨rfl, hText⟩
        rw [hFault] at hOk
        cases hOk

theorem map_fst_of_mapM
    {entries : Toml.Table}
    {settings : List (String × String)}
    (h : entries.mapM settingOfEntry = .ok settings) :
    settings.map Prod.fst = entries.keys := by
  refine Success.map_eq_of_forall₂ ?_ (Success.mapM_eq_ok h)
  intro x y hxy
  exact (settingOfEntry_eq_ok_iff.mp hxy).1

end Device

------------------------------------------------------------
-- The Order Of Keys
------------------------------------------------------------

namespace Toml.Table

theorem perm_sorted (t : Table) : t.sorted.Perm t :=
  List.mergeSort_perm _ _

/- Different keys are sorted into a strict order. -/
theorem ordered_sorted
    {t : Table}
    (h : t.keys.Nodup) :
    t.sorted.keys.Pairwise (· < ·) := by
  have hSorted :
      t.sorted.Pairwise fun a b => decide (a.1 ≤ b.1) := by
    apply List.pairwise_mergeSort
    · intro a b c hab hbc
      simp only [decide_eq_true_eq] at hab hbc ⊢
      exact le_trans hab hbc
    · intro a b
      simp only [Bool.or_eq_true, decide_eq_true_eq]
      exact le_total a.1 b.1
  have hNodup : t.sorted.keys.Nodup :=
    (t.perm_sorted.map Prod.fst).nodup_iff.mpr h
  have hLe : t.sorted.keys.Pairwise (· ≤ ·) :=
    List.pairwise_map.mpr
      (hSorted.imp fun hab => of_decide_eq_true hab)
  exact (hLe.and hNodup).imp fun hab =>
    lt_of_le_of_ne hab.1 hab.2

end Toml.Table

namespace Device

/- What is made of the sorted entries lists all of them. -/
theorem lists_of_mapM
    {entries : Toml.Table}
    {settings : List (String × String)}
    (hKeys : entries.keys.Nodup)
    (h : entries.sorted.mapM settingOfEntry = .ok settings) :
    Lists entries settings where
  ordered := by
    rw [map_fst_of_mapM h]
    exact Toml.Table.ordered_sorted hKeys
  keys := by
    rw [map_fst_of_mapM h]
    exact entries.perm_sorted.map Prod.fst
  spelled := by
    intro x hx
    rcases Success.exists_of_forall₂ (Success.mapM_eq_ok h)
      x hx with ⟨⟨key, value⟩, hEntry, hSetting⟩
    rcases settingOfEntry_eq_ok_iff.mp hSetting
      with ⟨hKey, hText⟩
    refine ⟨value, ?_, hText⟩
    rw [hKey]
    exact entries.perm_sorted.mem_iff.mp hEntry

------------------------------------------------------------
-- The Key Of The Table
------------------------------------------------------------

section Erasing

variable {t front back : Toml.Table}
variable {key : String}
variable {value : Toml.Value}

theorem erase_of_not_mem
    (h : key ∉ t.keys) :
    t.erase key = t := by
  apply List.filter_eq_self.mpr
  rintro ⟨other, value⟩ hMem
  refine decide_eq_true ?_
  rintro rfl
  exact h (List.mem_map_of_mem hMem)

/- Without its one entry of a key a table has all others. -/
theorem erase_middle
    (h : Toml.Table.keys (front ++ (key, value) :: back)
      |>.Nodup) :
    Toml.Table.erase (front ++ (key, value) :: back) key =
      front ++ back := by
  simp only [Toml.Table.keys, List.map_append, List.map_cons]
    at h
  have hOthers := (List.nodup_middle.mp h).notMem
  rw [← List.map_append] at hOthers
  have hErase := erase_of_not_mem (t := front ++ back) hOthers
  simpa [Toml.Table.erase, List.filter_append] using hErase

theorem split_of_get?
    (h : t.get? key = some value) :
    ∃ front back, t = front ++ (key, value) :: back := by
  rcases List.lookup_eq_some_iff.mp h
    with ⟨front, back, hSplit, -⟩
  exact ⟨front, back, hSplit⟩

theorem not_mem_keys_of_get?
    (h : t.get? key = none) :
    key ∉ t.keys := by
  intro hMem
  rcases List.mem_map.mp hMem with ⟨x, hx, rfl⟩
  simpa using List.lookup_eq_none_iff.mp h x hx

end Erasing

theorem not_spells_table
    (origin : Toml.Origin)
    (entries : Toml.Table) :
    ∀ text, ¬(Toml.Value.table origin entries).Spells text :=
  nofun

/- Where `device` is a table, all entries are looked at. -/
theorem settingTable_cases
    {t : Toml.Table}
    (hKeys : t.keys.Nodup)
    (hDevice : ∀ value, ("device", value) ∈ t →
      ∃ origin entries, value = .table origin entries) :
    (∃ entries,
        Subject t entries ∧ settingTable t = .ok entries) ∨
      Subject t t ∧ settingTable t = .error .keysOutside ∧
        ∃ x ∈ t, ∀ text, ¬x.2.Spells text := by
  cases hGet : t.get? "device" with
  | none =>
      have hAbsent := not_mem_keys_of_get? hGet
      refine .inl ⟨t, .flat ?_, ?_⟩
      · rintro origin entries rfl
        exact hAbsent (List.mem_cons_self ..)
      · simp only [settingTable, hGet,
          erase_of_not_mem hAbsent]
  | some value =>
      rcases split_of_get? hGet with ⟨front, back, rfl⟩
      have hMem :
          ("device", value) ∈
            front ++ ("device", value) :: back := by
        simp
      rcases hDevice value hMem with ⟨origin, inner, rfl⟩
      have hRest := erase_middle hKeys
      cases hOthers : front ++ back with
      | nil =>
          rw [List.append_eq_nil_iff] at hOthers
          rcases hOthers with ⟨rfl, rfl⟩
          exact .inl ⟨inner, .single origin inner, rfl⟩
      | cons x xs =>
          rw [hOthers] at hRest
          refine .inr ⟨.flat ?_, ?_, _, hMem,
            not_spells_table origin inner⟩
          · intro other entries hSingle
            have hLength := congrArg List.length hSingle
            have hCount := congrArg List.length hOthers
            simp only [List.length_append, List.length_cons,
              List.length_nil] at hLength hCount
            omega
          · simp only [settingTable, hGet, hRest,
              List.isEmpty_cons, Bool.false_eq_true, if_false]

/- A `device` that is no table is left out. -/
theorem settingTable_of_stray
    {t : Toml.Table}
    {value : Toml.Value}
    (hGet : t.get? "device" = some value)
    (hStray : ∀ origin entries,
      value ≠ .table origin entries) :
    settingTable t = .ok (t.erase "device") := by
  simp only [settingTable, hGet]
  split
  · rename_i origin entries hTable
    exact absurd (Option.some.inj hTable)
      (hStray origin entries)
  · rfl

------------------------------------------------------------
-- Whole Files
------------------------------------------------------------

/- The settings of a file are those of its entries. -/
theorem settingsOfTable_eq
    {t entries : Toml.Table}
    (h : settingTable t = .ok entries) :
    settingsOfTable t =
      entries.sorted.mapM settingOfEntry := by
  rw [settingsOfTable, h]
  rfl

/-
  No key is dropped without notice where `device`, if it is
  there at all, is a table: a file with a value that no
  setting can have is refused, and every other one gives one
  setting for each key.
-/
theorem files_keep_their_keys
    {t : Toml.Table}
    (hDistinct : t.Distinct)
    (hDevice : ∀ value, ("device", value) ∈ t →
      ∃ origin entries, value = .table origin entries) :
    ∃ entries, Subject t entries ∧
      ((∃ settings, settingsOfTable t = .ok settings) ↔
        ∀ x ∈ entries, ∃ text, x.2.Spells text) ∧
      ∀ settings, settingsOfTable t = .ok settings →
        Lists entries settings := by
  rcases settingTable_cases hDistinct.top hDevice
    with ⟨entries, hSubject, hTable⟩ |
      ⟨hSubject, hTable, x, hx, hNone⟩
  · have hKeys : entries.keys.Nodup := by
      cases hSubject with
      | single origin =>
          exact hDistinct.inner "device" origin entries
            (List.mem_singleton_self _)
      | flat => exact hDistinct.top
    rw [settingsOfTable_eq hTable]
    refine ⟨entries, hSubject, ?_, ?_⟩
    · rw [exists_mapM_eq_ok_iff]
      constructor
      · intro h x hx
        exact h x (entries.perm_sorted.mem_iff.mpr hx)
      · intro h x hx
        exact h x (entries.perm_sorted.mem_iff.mp hx)
    · intro settings h
      exact lists_of_mapM hKeys h
  · have hRefused :
        settingsOfTable t = .error .keysOutside := by
      rw [settingsOfTable, hTable]
      rfl
    refine ⟨t, hSubject, ?_, ?_⟩
    · constructor
      · rintro ⟨settings, h⟩
        rw [hRefused] at h
        cases h
      · intro h
        rcases h x hx with ⟨text, hText⟩
        exact absurd hText (hNone text)
    · intro settings h
      rw [hRefused] at h
      cases h

/- Keys out of order, one of them named like the table. -/
def shelf : Toml.Table :=
  [("name", .string "Shelf"), ("ledCount", .integer 16),
   ("device", .boolean true)]

theorem sorted_shelf :
    shelf.sorted =
      [("device", .boolean true), ("ledCount", .integer 16),
       ("name", .string "Shelf")] := by
  have hFirst : ¬"ledCount" ≤ "device" := by decide
  have hSecond : ¬"name" ≤ "ledCount" := by decide
  simp [shelf, Toml.Table.sorted, List.mergeSort,
    List.MergeSort.Internal.splitInTwo, hFirst, hSecond]

/- All three are read, in the order of their keys. -/
theorem files_keep_their_keys_shelf :
    Toml.Table.Distinct [("device", .table .header shelf)] ∧
      (∀ value,
        ("device", value) ∈
            ([("device", .table .header shelf)] : Toml.Table) →
          ∃ origin entries, value = .table origin entries) ∧
      settingsOfTable [("device", .table .header shelf)] =
        .ok [("device", "true"), ("ledCount", "16"),
          ("name", "Shelf")] ∧
      Lists shelf
        [("device", "true"), ("ledCount", "16"),
          ("name", "Shelf")] := by
  have hDistinct :
      Toml.Table.Distinct [("device", .table .header shelf)] := {
    top := by decide
    inner := by
      intro key origin entries hMem
      cases List.mem_singleton.mp hMem
      decide }
  have hDevice :
      ∀ value,
        ("device", value) ∈
            ([("device", .table .header shelf)] : Toml.Table) →
          ∃ origin entries, value = .table origin entries := by
    intro value hMem
    cases List.mem_singleton.mp hMem
    exact ⟨.header, shelf, rfl⟩
  have hSettings :
      settingsOfTable [("device", .table .header shelf)] =
        .ok [("device", "true"), ("ledCount", "16"),
          ("name", "Shelf")] := by
    have hInner :
        settingTable [("device", .table .header shelf)] =
          .ok shelf := rfl
    rw [settingsOfTable_eq hInner, sorted_shelf]
    rfl
  rcases files_keep_their_keys hDistinct hDevice
    with ⟨entries, hSubject, -, hLists⟩
  cases hSubject with
  | single _ =>
      exact ⟨hDistinct, hDevice, hSettings, hLists _ hSettings⟩
  | flat hFlat => exact absurd rfl (hFlat .header shelf)

/-
  A `device` that is no table is dropped: the settings are
  those of the other keys.
-/
theorem lists_others_of_stray
    {t : Toml.Table}
    (hKeys : t.keys.Nodup)
    {value : Toml.Value}
    (hGet : t.get? "device" = some value)
    (hStray : ∀ origin entries,
      value ≠ .table origin entries)
    {settings : List (String × String)}
    (h : settingsOfTable t = .ok settings) :
    Lists (t.erase "device") settings := by
  have hTable := settingTable_of_stray hGet hStray
  rw [settingsOfTable_eq hTable] at h
  refine lists_of_mapM ?_ h
  have hSublist : (t.erase "device").Sublist t :=
    List.filter_sublist
  exact (hSublist.map Prod.fst).nodup hKeys

/- Two settings, the first one named like the table. -/
def strip : Toml.Table :=
  [("device", .integer 5), ("ledCount", .integer 8)]

/- Its first key is neither refused nor listed. -/
theorem stray_device_is_dropped :
    Toml.parse? "device = 5\nledCount = 8\n" = some strip ∧
      strip.Distinct ∧ Subject strip strip ∧
      (∀ x ∈ strip, ∃ text, x.2.Spells text) ∧
      settingsOfTable strip = .ok [("ledCount", "8")] ∧
      ¬Lists strip [("ledCount", "8")] := by
  have hDistinct : strip.Distinct := {
    top := by decide
    inner := by
      intro key origin entries hMem
      simp [strip] at hMem }
  have hSpelled : ∀ x ∈ strip, ∃ text, x.2.Spells text :=
    List.forall_mem_cons.mpr
      ⟨⟨_, .integer 5⟩, List.forall_mem_singleton.mpr
        ⟨_, .integer 8⟩⟩
  have hFlat : Subject strip strip := by
    apply Subject.flat
    intro origin entries hSingle
    simp [strip] at hSingle
  refine ⟨by cbv, hDistinct, hFlat, hSpelled, by cbv, ?_⟩
  -- two keys are not one setting
  intro h
  exact absurd h.keys.length_eq (by decide)

end Device

end LightShow
