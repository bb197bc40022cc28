import Mathlib
import LightShow.Device.Described
import LightShow.Proofs.LogHistories

/-
  The last setting of a key wins.

  A good setting changes the field of its key and no other; a
  bad one changes nothing and is reported, whatever device it
  is applied to. So the device of a list of good settings has
  in every field what the last setting of that field says,
  and the report of a list with bad settings has one error
  for each of them.

  Key definitions include:
    * `Device.complaint`
    * `Device.report`

  Main statements:
    * `Device.Key.ofText?_eq_some_iff`
    * `Device.apply_of_names`
    * `Device.apply_of_bad`
    * `Device.field_foldl_assign`
    * `Device.log_foldl_assign`
    * `Device.resolve_eq_ok_iff`
    * `Device.last_settings_win`
-/

namespace LightShow

namespace Device

------------------------------------------------------------
-- Keys And Fields
------------------------------------------------------------

/- A key is found by its spelling, in any ASCII case. -/
theorem Key.ofText?_eq_some_iff
    {text : String}
    {key : Key} :
    Key.ofText? text = some key ↔ key.Names text := by
  unfold Key.Names
  constructor
  · intro h
    unfold Key.ofText? at h
    split at h <;> cases h <;> rename_i hLower <;>
      exact hLower.trans (by decide)
  · intro h
    unfold Key.ofText?
    rw [h]
    cases key <;> rfl

/- No text names two keys. -/
theorem Key.Names.unique
    {text : String}
    {key other : Key}
    (h : key.Names text)
    (hOther : other.Names text) :
    key = other := by
  have hKey := Key.ofText?_eq_some_iff.mpr h
  rw [Key.ofText?_eq_some_iff.mpr hOther] at hKey
  exact (Option.some.inj hKey).symm

/- Setting a key changes its own field only. -/
theorem field_set
    (d : Device)
    (key : Key)
    (v : key.Value) :
    (d.set key v).field = Function.update d.field key v := by
  funext other
  cases key <;> cases other <;> rfl

/- A device is what it holds under its keys. -/
theorem field_injective :
    Function.Injective field := by
  intro d e h
  have hAll := fun key => congrFun h key
  cases d
  cases e
  congr
  · exact hAll .name
  · exact hAll .kind
  · exact hAll .usbVendorId
  · exact hAll .usbProductId
  · exact hAll .usbPacketBytes
  · exact hAll .tickMillis
  · exact hAll .ramBytes
  · exact hAll .romBytes
  · exact hAll .ledCount
  · exact hAll .protocol
  · exact hAll .saveToRom

------------------------------------------------------------
-- One Setting
------------------------------------------------------------

/- Why a setting is bad. -/
def complaint (text value : String) : SettingError :=
  match Key.ofText? text with
  | none => .unknownKey text
  | some key => key.complaint text value

/- A setting of a known key is read by the type of the key. -/
theorem apply_of_names
    {key : Key}
    {text : String}
    (hKey : key.Names text)
    (d : Device)
    (value : String) :
    d.apply text value =
      match key.read? value with
      | some v => .ok (d.set key v)
      | none => .error (complaint text value) := by
  have hFound := Key.ofText?_eq_some_iff.mpr hKey
  rw [apply, complaint, hFound]
  cases key with
  | name => rfl
  | kind => rfl
  | usbVendorId => rfl
  | usbProductId => rfl
  | protocol => rfl
  | saveToRom =>
      unfold bool
      simp only [Key.read?]
      cases bool? value <;> rfl
  | _ =>
      unfold integer
      simp only [Key.read?]
      cases integer? value <;> rfl

theorem apply_of_unknown
    {text : String}
    (hUnknown : Key.ofText? text = none)
    (d : Device)
    (value : String) :
    d.apply text value = .error (complaint text value) := by
  rw [apply, complaint, hUnknown]

/- A good setting has a key and a value of its type. -/
theorem Good.exists_value
    {setting : String × String}
    (h : Good setting) :
    ∃ (key : Key) (v : key.Value),
      key.Names setting.1 ∧
        key.read? setting.2 = some v := by
  rcases h with ⟨key, hKey, hRead⟩
  rcases Option.isSome_iff_exists.mp hRead with ⟨v, hv⟩
  exact ⟨key, v, hKey, hv⟩

/- A bad setting is refused by every device alike. -/
theorem apply_of_bad
    {text value : String}
    (h : ¬Good (text, value))
    (d : Device) :
    d.apply text value = .error (complaint text value) := by
  cases hKey : Key.ofText? text with
  | none => exact apply_of_unknown hKey d value
  | some key =>
      have hNames := Key.ofText?_eq_some_iff.mp hKey
      have hRead : key.read? value = none := by
        apply Option.not_isSome_iff_eq_none.mp
        intro hSome
        exact h ⟨key, hNames, hSome⟩
      rw [apply_of_names hNames, hRead]

instance (setting : String × String) :
    Decidable (Good setting) :=
  match hKey : Key.ofText? setting.1 with
  | none =>
      .isFalse fun ⟨key, hNames, _⟩ => by
        rw [Key.ofText?_eq_some_iff.mpr hNames] at hKey
        cases hKey
  | some key =>
      have hNames := Key.ofText?_eq_some_iff.mp hKey
      decidable_of_iff (key.read? setting.2).isSome
        ⟨fun h => ⟨key, hNames, h⟩,
         fun ⟨other, hOther, h⟩ => by
          cases hNames.unique hOther
          exact h⟩

------------------------------------------------------------
-- What Settings Describe
------------------------------------------------------------

theorem settingsOf_append
    (key : Key)
    (first second : List (String × String)) :
    settingsOf key (first ++ second) =
      settingsOf key first ++ settingsOf key second :=
  List.filter_append ..

/- Without settings all is as by default. -/
theorem described_nil :
    described [] = field {} :=
  rfl

/- One more setting describes one more value of its key. -/
theorem described_concat
    {key : Key}
    {setting : String × String}
    {v : key.Value}
    (hKey : key.Names setting.1)
    (hRead : key.read? setting.2 = some v)
    (settings : List (String × String)) :
    described (settings ++ [setting]) =
      Function.update (described settings) key v := by
  funext other
  by_cases hSame : other = key
  · subst hSame
    have hLast :
        settingsOf other [setting] = [setting] := by
      simp [settingsOf, hKey]
    rw [Function.update_self, described, settingsOf_append,
      hLast, List.getLast?_concat, Option.bind_some, hRead,
      Option.getD_some]
  · have hOther : ¬other.Names setting.1 :=
      fun h => hSame (h.unique hKey)
    have hLast : settingsOf other [setting] = [] := by
      simp [settingsOf, hOther]
    rw [Function.update_of_ne hSame, described,
      settingsOf_append, hLast, List.append_nil, described]

/- Settings of different keys describe the same anywhere. -/
theorem Reorders.described_eq
    {first second : List (String × String)}
    (h : Reorders first second) :
    described first = described second := by
  funext key
  rw [described, h.2 key, described]

theorem Reorders.good_iff
    {first second : List (String × String)}
    (h : Reorders first second) :
    (∀ s ∈ first, Good s) ↔ ∀ s ∈ second, Good s := by
  constructor
  · intro hGood s hs
    exact hGood s (h.1.mem_iff.mpr hs)
  · intro hGood s hs
    exact hGood s (h.1.mem_iff.mp hs)

------------------------------------------------------------
-- Settings In Order
------------------------------------------------------------

/- The key and the value of a setting that is reported. -/
def Assignment.setting (a : Assignment) : String × String :=
  (a.key, a.value)

/- What is reported of a bad setting. -/
def report
    (source : SourceText)
    (a : Assignment) : Diagnostic :=
  (a.fault (complaint a.key a.value)).diagnostic source a.span

theorem map_setting_assignments
    (script : Script)
    (overrides : List (String × String)) :
    (assignments script overrides).map Assignment.setting =
      settings script overrides := by
  simp only [assignments, settings, List.map_append,
    List.map_map]
  congr 1
  exact List.map_id overrides

section Folds

variable (source : SourceText)
variable (acc : Device × Log)

/- A good setting changes a field and reports nothing. -/
theorem assign_of_good
    {a : Assignment}
    {key : Key}
    {v : key.Value}
    (hKey : key.Names a.key)
    (hRead : key.read? a.value = some v) :
    assign source acc a = (acc.1.set key v, acc.2) := by
  have hApply := apply_of_names hKey acc.1 a.value
  rw [hRead] at hApply
  simp only [assign, hApply]

/- A bad setting changes nothing and is reported. -/
theorem assign_of_bad
    {a : Assignment}
    (h : ¬Good a.setting) :
    assign source acc a =
      (acc.1, acc.2.pushError (report source a)) := by
  simp only [assign, apply_of_bad h]
  rfl

/- Good settings describe the device that they make. -/
theorem field_foldl_assign
    {all : List Assignment}
    (h : ∀ a ∈ all, Good a.setting)
    (log : Log) :
    (all.foldl (assign source) ({}, log)).1.field =
      described (all.map Assignment.setting) := by
  -- From the back, since the last setting is the one that
  -- counts.
  induction all using List.reverseRecOn with
  | nil => exact described_nil.symm
  | append_singleton all a ih =>
      have hBefore : ∀ b ∈ all, Good b.setting := by
        intro b hb
        exact h b (List.mem_append_left [a] hb)
      have hLast : Good a.setting :=
        h a (List.mem_concat_self ..)
      rcases hLast.exists_value with ⟨key, v, hKey, hRead⟩
      rw [List.foldl_concat, List.map_append,
        List.map_singleton, described_concat hKey hRead,
        ← ih hBefore, assign_of_good source _ hKey hRead,
        field_set]

/- Every bad setting is reported, in order. -/
theorem log_foldl_assign
    (all : List Assignment) :
    (all.foldl (assign source) acc).2 =
      ((all.filter fun a => ¬Good a.setting).map
        (report source)).foldl Log.pushError acc.2 := by
  induction all generalizing acc with
  | nil => rfl
  | cons a all ih =>
      rw [List.foldl_cons, ih]
      by_cases hGood : Good a.setting
      · rcases hGood.exists_value with ⟨key, v, hKey, hRead⟩
        rw [assign_of_good source acc hKey hRead,
          List.filter_cons_of_neg (by simpa using hGood)]
      · rw [assign_of_bad source acc hGood,
          List.filter_cons_of_pos (by simpa using hGood)]
        rfl

end Folds

------------------------------------------------------------
-- Devices
------------------------------------------------------------

section Resolve

variable {script : Script}
variable {overrides : List (String × String)}

/- Settings are those of the script and the overrides. -/
theorem settings_ne_nil_iff :
    settings script overrides ≠ [] ↔
      script.settings ≠ [] ∨ overrides ≠ [] := by
  rw [settings, ne_eq, List.append_eq_nil_iff,
    List.map_eq_nil_iff, not_and_or]

theorem assignments_ne_nil
    (hSome : script.settings ≠ [] ∨ overrides ≠ []) :
    assignments script overrides ≠ [] := by
  have hSettings := settings_ne_nil_iff.mpr hSome
  rw [← map_setting_assignments, ne_eq,
    List.map_eq_nil_iff] at hSettings
  exact hSettings

/- All settings are good if all assignments are. -/
theorem good_assignments_iff :
    (∀ a ∈ assignments script overrides, Good a.setting) ↔
      ∀ s ∈ settings script overrides, Good s := by
  rw [← map_setting_assignments, List.forall_mem_map]

/- The log of all settings is that of the bad ones. -/
theorem log_assignments
    (source : SourceText) :
    ((assignments script overrides).foldl (assign source)
        ({}, .empty)).2 =
      History.log
        { errors :=
            ((assignments script overrides).filter fun a =>
              ¬Good a.setting).map (report source) } := by
  rw [log_foldl_assign]
  exact History.foldl_pushError_log {} _

/- Bad settings are reported, and no device results. -/
theorem resolve_of_bad
    (source : SourceText)
    (hBad : ¬∀ s ∈ settings script overrides, Good s) :
    resolve source script overrides =
      .error (History.log
        { errors :=
            ((assignments script overrides).filter fun a =>
              ¬Good a.setting).map (report source) }) := by
  rw [← good_assignments_iff] at hBad
  push Not at hBad
  rcases hBad with ⟨a, ha, hBad⟩
  have hErrors :
      0 < (((assignments script overrides).filter fun a =>
        ¬Good a.setting).map (report source)).length := by
    rw [List.length_map]
    apply List.length_pos_of_mem (a := a)
    exact List.mem_filter.mpr ⟨ha, by simpa using hBad⟩
  unfold resolve
  split
  · rename_i hNone
    rw [hNone] at ha
    cases ha
  · dsimp only
    rw [log_assignments, if_pos]
    exact decide_eq_true hErrors

/- Good settings make the device that they describe. -/
theorem resolve_of_good
    (source : SourceText)
    (hSome : script.settings ≠ [] ∨ overrides ≠ [])
    (hGood : ∀ s ∈ settings script overrides, Good s)
    (d : Device) :
    resolve source script overrides = .ok d ↔
      d.field = described (settings script overrides) ∧
        d.validate = .ok () := by
  have hAll := good_assignments_iff.mpr hGood
  have hField := field_foldl_assign source hAll Log.empty
  rw [map_setting_assignments] at hField
  have hNone :
      (assignments script overrides).filter
        (fun a => ¬Good a.setting) = [] := by
    apply List.filter_eq_nil_iff.mpr
    intro a ha
    simpa using hAll a ha
  unfold resolve
  split
  · rename_i hEmpty
    exact absurd hEmpty (assignments_ne_nil hSome)
  · have hClean :
        (History.log { errors := [] }).hasErrors ≠ true :=
      Bool.false_ne_true
    dsimp only
    rw [log_assignments, hNone, List.map_nil, if_neg hClean,
      ← hField]
    split
    · rename_i hValid
      constructor
      · intro h
        cases h
        exact ⟨rfl, hValid⟩
      · intro h
        rw [field_injective h.1]
    · rename_i e hInvalid
      constructor
      · intro h
        cases h
      · intro h
        rw [field_injective h.1, hInvalid] at h
        cases h.2

/-
  A device results if all settings are good and three of the
  numbers that they describe are not zero.
-/
theorem resolve_eq_ok_iff
    (source : SourceText)
    (hSome : script.settings ≠ [] ∨ overrides ≠ [])
    (d : Device) :
    resolve source script overrides = .ok d ↔
      d.field = described (settings script overrides) ∧
        (∀ s ∈ settings script overrides, Good s) ∧
        described (settings script overrides) .ledCount ≠ 0 ∧
        described (settings script overrides) .tickMillis ≠
          0 ∧
        described (settings script overrides)
          .usbPacketBytes ≠ 0 := by
  by_cases hGood : ∀ s ∈ settings script overrides, Good s
  · rw [resolve_of_good source hSome hGood,
      validate_eq_ok_iff]
    constructor
    · rintro ⟨hField, hUsable⟩
      rw [← hField]
      exact ⟨rfl, hGood, hUsable⟩
    · rintro ⟨hField, -, hUsable⟩
      rw [← hField] at hUsable
      exact ⟨hField, hUsable⟩
  · rw [resolve_of_bad source hGood]
    constructor
    · intro h
      cases h
    · intro h
      exact absurd h.2.1 hGood

/- There is a device as good settings describe it. -/
theorem exists_described
    (source : SourceText)
    (hGood : ∀ s ∈ settings script overrides, Good s) :
    ∃ d : Device,
      d.field = described (settings script overrides) := by
  have hField := field_foldl_assign source
    (good_assignments_iff.mpr hGood) Log.empty
  rw [map_setting_assignments] at hField
  exact ⟨_, hField⟩

/- There is one report for each bad setting. -/
theorem length_reports
    (source : SourceText) :
    (((assignments script overrides).filter fun a =>
        ¬Good a.setting).map (report source)).length =
      ((settings script overrides).filter fun s =>
        ¬Good s).length := by
  rw [← map_setting_assignments, List.filter_map,
    List.length_map, List.length_map]
  rfl

/- Where the reports of bad settings point to. -/
theorem map_span_reports
    (source : SourceText) :
    (((assignments script overrides).filter fun a =>
        ¬Good a.setting).map (report source)).map
          Diagnostic.span =
      ((script.settings.filter fun s =>
          ¬Good (s.key.text, s.value)).map Setting.span) ++
        (overrides.filter fun s => ¬Good s).map
          fun _ => Span.origin := by
  simp only [assignments, List.filter_append, List.map_append,
    List.filter_map, List.map_map]
  rfl

end Resolve

/-
  Of all settings of a field the last one counts, those of
  the script before the overrides.
-/
theorem last_settings_win
    (source : SourceText)
    (script : Script)
    (overrides : List (String × String))
    (hSome : script.settings ≠ [] ∨ overrides ≠ []) :
    ((∃ d, resolve source script overrides = .ok d) ↔
      (∀ s ∈ settings script overrides, Good s) ∧
        described (settings script overrides) .ledCount ≠ 0 ∧
        described (settings script overrides) .tickMillis ≠
          0 ∧
        described (settings script overrides)
          .usbPacketBytes ≠ 0) ∧
    (∀ d, resolve source script overrides = .ok d →
      ∀ key,
        d.field key =
          described (settings script overrides) key) ∧
    (∀ source' script' overrides',
      Reorders (settings script overrides)
          (settings script' overrides') →
        ∀ d,
          resolve source script overrides = .ok d ↔
            resolve source' script' overrides' = .ok d) ∧
    ((∃ s ∈ settings script overrides, ¬Good s) →
      ∃ log,
        resolve source script overrides = .error log ∧
          log.totalErrors =
            ((settings script overrides).filter fun s =>
              ¬Good s).length ∧
          log.errors.map Diagnostic.span =
            ((script.settings.filter fun s =>
                ¬Good (s.key.text, s.value)).map
                  Setting.span ++
              (overrides.filter fun s => ¬Good s).map
                fun _ => Span.origin).take 20) := by
  refine ⟨?_, ?_, ?_, ?_⟩
  · constructor
    · rintro ⟨d, hd⟩
      exact ((resolve_eq_ok_iff source hSome d).mp hd).2
    · rintro ⟨hGood, hUsable⟩
      rcases exists_described source hGood with ⟨d, hd⟩
      exact ⟨d, (resolve_eq_ok_iff source hSome d).mpr
        ⟨hd, hGood, hUsable⟩⟩
  · intro d hd key
    rw [((resolve_eq_ok_iff source hSome d).mp hd).1]
  · intro source' script' overrides' hReorders d
    have hSome' :
        script'.settings ≠ [] ∨ overrides' ≠ [] := by
      apply settings_ne_nil_iff.mp
      intro hNil
      apply settings_ne_nil_iff.mpr hSome
      exact List.perm_nil.mp (hNil ▸ hReorders.1)
    rw [resolve_eq_ok_iff source hSome,
      resolve_eq_ok_iff source' hSome', hReorders.good_iff,
      hReorders.described_eq]
  · rintro ⟨s, hs, hBad⟩
    have hSomeBad :
        ¬∀ s ∈ settings script overrides, Good s := by
      intro hGood
      exact hBad (hGood s hs)
    refine ⟨_, resolve_of_bad source hSomeBad, ?_, ?_⟩
    · exact length_reports source
    · rw [History.log, List.map_take, map_span_reports]
      rfl

/- A lamp whose LED count is set twice, and set outside. -/
def lampLines : List Setting :=
  [⟨⟨"ledCount", .origin⟩, "8", ⟨1, 1, 1, 24⟩⟩,
   ⟨⟨"tickIntervalMillisecs", .origin⟩, "10",
     ⟨2, 1, 2, 38⟩⟩,
   ⟨⟨"LedCount", .origin⟩, " +12 ", ⟨3, 1, 3, 28⟩⟩]

/- The lines of the lamp, the tick in front. -/
def movedLines : List Setting :=
  [⟨⟨"tickIntervalMillisecs", .origin⟩, "10",
     ⟨1, 1, 1, 38⟩⟩,
   ⟨⟨"ledCount", .origin⟩, "8", ⟨2, 1, 2, 24⟩⟩,
   ⟨⟨"LedCount", .origin⟩, " +12 ", ⟨3, 1, 3, 28⟩⟩]

/- A line with a value and one with a key that is bad. -/
def faultyLines : List Setting :=
  [⟨⟨"ledCount", .origin⟩, "eight", ⟨1, 1, 1, 28⟩⟩,
   ⟨⟨"colour", .origin⟩, "red", ⟨2, 1, 2, 24⟩⟩]

theorem reorders_moved :
    Reorders
      (settings { settings := lampLines } [("name", "Lamp")])
      (settings { settings := movedLines }
        [("name", "Lamp")]) := by
  constructor
  · exact List.Perm.swap ..
  · intro key
    cases key <;> decide

theorem last_settings_win_lamp :
    (∃ d : Device,
      resolve ⟨"lamp", ""⟩ { settings := lampLines }
          [("name", "Lamp")] = .ok d ∧
        resolve ⟨"lamp", ""⟩ { settings := movedLines }
          [("name", "Lamp")] = .ok d ∧
        d.field .ledCount = 12 ∧
        d.field .usbPacketBytes = 64 ∧
        d.field .name = "Lamp") ∧
      ∃ log,
        resolve ⟨"lamp", ""⟩ { settings := faultyLines }
            [("saveToRom", "maybe")] = .error log ∧
          log.totalErrors = 3 ∧
          log.errors.map Diagnostic.span =
            [⟨1, 1, 1, 28⟩, ⟨2, 1, 2, 24⟩, .origin] := by
  have hLamp := last_settings_win ⟨"lamp", ""⟩
    { settings := lampLines } [("name", "Lamp")]
    (.inl (List.cons_ne_nil _ _))
  have hFaulty := last_settings_win ⟨"lamp", ""⟩
    { settings := faultyLines } [("saveToRom", "maybe")]
    (.inl (List.cons_ne_nil _ _))
  constructor
  · have hGood :
        ∀ s ∈ settings { settings := lampLines }
          [("name", "Lamp")], Good s := by
      decide
    rcases hLamp.1.mpr
        ⟨hGood, by decide, by decide, by decide⟩
      with ⟨d, hd⟩
    have hMoved := (hLamp.2.2.1 ⟨"lamp", ""⟩ _ _
      reorders_moved d).mp hd
    have hFields := hLamp.2.1 d hd
    exact ⟨d, hd, hMoved, (hFields .ledCount).trans rfl,
      (hFields .usbPacketBytes).trans rfl,
      (hFields .name).trans rfl⟩
  · have hBad :
        ∃ s ∈ settings { settings := faultyLines }
          [("saveToRom", "maybe")], ¬Good s :=
      ⟨("colour", "red"), by decide, by decide⟩
    rcases hFaulty.2.2.2 hBad
      with ⟨log, hLog, hTotal, hSpans⟩
    exact ⟨log, hLog, hTotal.trans (by decide),
      hSpans.trans (by decide)⟩

end Device

end LightShow
