import LightShow.Image.Listing
import LightShow.Image.ListingReading
import LightShow.Proofs.FieldNames
import LightShow.Proofs.Placing

/-
  Listings are read back from their text.

  What is written on a line of a listing is told apart by
  the texts between it: no name has a colon, no value has a
  comma, and numbers and bits end with their digits. So each
  line is read as the row that it was written for.

  Key definitions include:
    * `LineReader.Reads`
    * `Listing.Stands`
    * `Listing.rows`

  Main statements:
    * `Listing.stands_fieldLine`
    * `Listing.stands_lines`
    * `Listing.read?_render`
-/

namespace LightShow

------------------------------------------------------------
-- Readings
------------------------------------------------------------

namespace LineReader

variable {α β : Type}

/- A reader takes the characters in front of others. -/
def Reads
    (r : LineReader α)
    (a : α)
    (cs behind : List Char) : Prop :=
  r cs = some (a, behind)

theorem reads_pure
    (a : α)
    (cs : List Char) :
    Reads (pure a) a cs cs :=
  rfl

/- Readings follow one another. -/
theorem Reads.bind
    {r : LineReader α}
    {f : α → LineReader β}
    {a : α}
    {b : β}
    {first second behind : List Char}
    (hr : Reads r a first second)
    (hf : Reads (f a) b second behind) :
    Reads (r >>= f) b first behind := by
  unfold Reads at hr
  change ((r first).bind fun x => f x.1 x.2) = _
  rw [hr]
  exact hf

/- Nothing is left behind a line that is read as a whole. -/
theorem Reads.whole
    {r : LineReader α}
    {a : α}
    {cs : List Char}
    (hr : Reads r a cs []) :
    r.whole cs = some a := by
  unfold Reads at hr
  rw [LineReader.whole, hr]

theorem reads_expect
    (text : String)
    (behind : List Char) :
    Reads (expect text) () (text.toList ++ behind)
      behind := by
  unfold Reads expect
  rw [if_pos (List.isPrefixOf_iff_prefix.mpr
    (List.prefix_append _ _)), List.drop_left]

/- The last text of a line. -/
theorem reads_end
    (text : String)
    (a : α) :
    Reads (expect text >>= fun _ => pure a) a text.toList
      [] := by
  have h := (reads_expect text []).bind (f := fun _ => pure a)
    (reads_pure a [])
  rwa [List.append_nil] at h

/- Where a class of characters ends. -/
def Stops (p : Char → Bool) (behind : List Char) : Prop :=
  ∀ c ∈ behind.head?, p c = false

theorem stops_text
    (p : Char → Bool)
    (text : String)
    (hText : ∃ c cs, text.toList = c :: cs ∧ p c = false)
    (behind : List Char) :
    Stops p (text.toList ++ behind) := by
  rcases hText with ⟨c, cs, hText, hc⟩
  intro d hd
  rw [hText] at hd
  cases hd
  exact hc

theorem stops_end
    (p : Char → Bool)
    (text : String)
    (hText : ∃ c cs, text.toList = c :: cs ∧ p c = false) :
    Stops p text.toList := by
  have h := stops_text p text hText []
  rwa [List.append_nil] at h

theorem reads_run
    {p : Char → Bool}
    {word : String}
    {behind : List Char}
    (hRun : word.toList.all p = true)
    (hStop : Stops p behind) :
    Reads (run p) word (word.toList ++ behind) behind := by
  have hRest :
      behind.takeWhile p = [] ∧
        behind.dropWhile p = behind := by
    cases behind with
    | nil => exact ⟨rfl, rfl⟩
    | cons c behind =>
        have hc := hStop c rfl
        simp [hc]
  have hRun := List.all_eq_true.mp hRun
  unfold Reads run
  rw [List.takeWhile_append_of_pos hRun,
    List.dropWhile_append_of_pos hRun, hRest.1, hRest.2,
    List.append_nil, String.ofList_toList]

/- A number is read back from its digits. -/
theorem reads_number
    (n : Nat)
    {behind : List Char}
    (hStop : Stops Char.isDigit behind) :
    Reads number n ((toString n).toList ++ behind)
      behind := by
  have hSome : (toString n).isEmpty = false := by
    simp
  have hValue : Text.digitsValue (toString n).toList = n := by
    rw [Text.toList_number]
    exact Nat.ofDigitChars_toDigits (by decide) (by decide)
  refine (reads_run (Text.isDigit_number n) hStop).bind ?_
  simp only [hSome, hValue]
  exact reads_pure n behind

/- Bits are read back from their digits. -/
theorem ofText?_text
    (b : Bits) :
    Bits.ofText? (Bits.text b) = some b := by
  rw [Bits.ofText?, Bits.text, String.toList_ofList]
  induction b with
  | nil => rfl
  | cons bit b ih =>
      rw [List.map_cons, List.mapM_cons, ih]
      cases bit <;> rfl

theorem isBit_text
    (b : Bits) :
    (Bits.text b).toList.all (fun c => c == '0' || c == '1') =
      true := by
  rw [Bits.text, String.toList_ofList, List.all_map]
  exact List.all_eq_true.mpr fun bit _ => by cases bit <;> rfl

theorem reads_bits
    (b : Bits)
    {behind : List Char}
    (hStop : Stops (fun c => c == '0' || c == '1') behind) :
    Reads bits b ((Bits.text b).toList ++ behind)
      behind := by
  refine (reads_run (isBit_text b) hStop).bind ?_
  rw [ofText?_text]
  rfl

end LineReader

------------------------------------------------------------
-- Lines
------------------------------------------------------------

namespace Listing

open LineReader (Reads Stops expect run number reads_end
  reads_expect reads_pure reads_run reads_number reads_bits
  stops_text stops_end isBit_text)
open Text (not_mem_of_class isDigit_number)

theorem all_of_not_mem
    {c : Char}
    {cs : List Char}
    (h : c ∉ cs) :
    cs.all (· != c) = true := by
  simpa using fun d hd => ne_of_mem_of_not_mem hd h

theorem reads_fieldRow
    {name value : String}
    (hName : ':' ∉ name.toList)
    (hValue : ',' ∉ value.toList)
    (bits : Bits)
    (width start : Nat) :
    Reads fieldRow (.field name bits width value start)
      (name.toList ++ (": ".toList ++
        ((Bits.text bits).toList ++ (" (width=".toList ++
          ((toString width).toList ++ (", value=".toList ++
            (value.toList ++ (", startbit=".toList ++
              ((toString start).toList ++
                ")".toList)))))))))
      [] := by
  have hColon := stops_text (· != ':') ": "
    ⟨_, _, rfl, rfl⟩
  have hBlank := stops_text (fun c => c == '0' || c == '1')
    " (width=" ⟨_, _, rfl, rfl⟩
  have hWidth := stops_text Char.isDigit ", value="
    ⟨_, _, rfl, rfl⟩
  have hComma := stops_text (· != ',') ", startbit="
    ⟨_, _, rfl, rfl⟩
  have hEnd := stops_end Char.isDigit ")" ⟨_, _, rfl, rfl⟩
  unfold fieldRow
  refine (reads_run (all_of_not_mem hName) (hColon _)).bind ?_
  refine (reads_expect ": " _).bind ?_
  refine (reads_bits bits (hBlank _)).bind ?_
  refine (reads_expect " (width=" _).bind ?_
  refine (reads_number width (hWidth _)).bind ?_
  refine (reads_expect ", value=" _).bind ?_
  refine (reads_run (all_of_not_mem hValue) (hComma _)).bind ?_
  refine (reads_expect ", startbit=" _).bind ?_
  refine (reads_number start hEnd).bind ?_
  exact reads_end ")" _

theorem reads_pathRow
    (id thread zOrder width : Nat) :
    Reads pathRow (.path id thread zOrder width)
      ("path ".toList ++ ((toString id).toList ++
        (" (thread ".toList ++ ((toString thread).toList ++
          (", z-order ".toList ++ ((toString zOrder).toList ++
            (", ".toList ++ ((toString width).toList ++
              " bits)".toList))))))))
      [] := by
  have hThread := stops_text Char.isDigit " (thread "
    ⟨_, _, rfl, rfl⟩
  have hOrder := stops_text Char.isDigit ", z-order "
    ⟨_, _, rfl, rfl⟩
  have hWidth := stops_text Char.isDigit ", "
    ⟨_, _, rfl, rfl⟩
  have hEnd := stops_end Char.isDigit " bits)"
    ⟨_, _, rfl, rfl⟩
  unfold pathRow
  refine (reads_expect "path " _).bind ?_
  refine (reads_number id (hThread _)).bind ?_
  refine (reads_expect " (thread " _).bind ?_
  refine (reads_number thread (hOrder _)).bind ?_
  refine (reads_expect ", z-order " _).bind ?_
  refine (reads_number zOrder (hWidth _)).bind ?_
  refine (reads_expect ", " _).bind ?_
  refine (reads_number width hEnd).bind ?_
  exact reads_end " bits)" _

theorem reads_headerRow
    (bytes : Nat) :
    Reads headerRow (.header bytes)
      ("context-region: ".toList ++
        ((toString bytes).toList ++ " bytes".toList))
      [] := by
  have hEnd := stops_end Char.isDigit " bytes"
    ⟨_, _, rfl, rfl⟩
  unfold headerRow
  refine (reads_expect "context-region: " _).bind ?_
  refine (reads_number bytes hEnd).bind ?_
  exact reads_end " bytes" _

/- The place in the source at the end of a step's line. -/
def lineText : Option Nat → String
  | some line => s!" line {line}"
  | none => ""

theorem toList_lineText_some
    (n : Nat) :
    (lineText (some n)).toList =
      " line ".toList ++ (toString n).toList :=
  String.toList_append

theorem reads_line
    (line : Option Nat) :
    Reads
      (LineReader.rest do
        expect " line "
        number)
      line (lineText line).toList [] := by
  cases line with
  | none => rfl
  | some n =>
      have hRead := (reads_expect " line "
        ((toString n).toList ++ [])).bind
          (f := fun _ => number) (reads_number n nofun)
      rw [toList_lineText_some]
      rw [List.append_nil] at hRead
      have hSome :
          (" line ".toList ++ (toString n).toList).isEmpty =
            false :=
        rfl
      unfold Reads LineReader.rest at *
      rw [hSome, hRead]
      rfl

theorem reads_stepRow
    {name : String}
    (hName : name.toList.all Char.isAlpha = true)
    (bit pathBit : Nat)
    (line : Option Nat) :
    Reads stepRow (.step name bit pathBit line)
      (name.toList ++ (" @ bit ".toList ++
        ((toString bit).toList ++ (" (path bit ".toList ++
          ((toString pathBit).toList ++ (")".toList ++
            (lineText line).toList))))))
      [] := by
  have hBlank := stops_text Char.isAlpha " @ bit "
    ⟨_, _, rfl, rfl⟩
  have hPath := stops_text Char.isDigit " (path bit "
    ⟨_, _, rfl, rfl⟩
  have hEnd := stops_text Char.isDigit ")" ⟨_, _, rfl, rfl⟩
  unfold stepRow
  refine (reads_run hName (hBlank _)).bind ?_
  refine (reads_expect " @ bit " _).bind ?_
  refine (reads_number bit (hPath _)).bind ?_
  refine (reads_expect " (path bit " _).bind ?_
  refine (reads_number pathBit (hEnd _)).bind ?_
  refine (reads_expect ")" _).bind ?_
  exact (reads_line line).bind (reads_pure _ [])

------------------------------------------------------------
-- Characters Of Lines
------------------------------------------------------------

theorem newline_not_mem_number
    (n : Nat) :
    '\n' ∉ (toString n).toList :=
  not_mem_of_class (p := Char.isDigit) rfl (isDigit_number n)

theorem isAlphanum_number
    (n : Nat) :
    (toString n).toList.all Char.isAlphanum = true := by
  have hDigits := isDigit_number n
  rw [List.all_eq_true] at hDigits ⊢
  intro c hc
  simp [Char.isAlphanum, hDigits c hc]

theorem isAlphanum_bytesText
    (bytes : Nat) :
    (WidthCode.bytesText bytes).toList.all Char.isAlphanum =
      true := by
  have hText :
      (WidthCode.bytesText bytes).toList =
        "Bytes".toList ++ (toString bytes).toList :=
    String.toList_append
  rw [hText, List.all_append, isAlphanum_number]
  rfl

/- Values are written with letters and digits. -/
theorem isAlphanum_valueText
    (f : Field) :
    (valueText f).toList.all Char.isAlphanum = true := by
  have hCode (width code : Nat) :
      (WidthCode.textOfCode width code).toList.all
        Char.isAlphanum = true := by
    unfold WidthCode.textOfCode
    split
    · split
      · exact isAlphanum_bytesText _
      · rfl
    · split
      · exact isAlphanum_bytesText _
      · rfl
    · exact isAlphanum_number _
  unfold valueText
  split
  · exact hCode f.width f.value
  · split
    · rfl
    · exact isAlphanum_number f.value

/- Operations are named with letters. -/
theorem isAlpha_text
    (op : Op) :
    op.text.toList.all Char.isAlpha = true := by
  cases op <;>
    (dsimp only [Op.text]
     decide)

/- Blanks behind a name leave it legible. -/
theorem isLegible_padRight
    (width : Nat)
    {name : String}
    (h : isLegible name = true) :
    isLegible (padRight width name) = true := by
  have hBlanks (count : Nat) :
      isLegible (String.ofList (List.replicate count ' ')) =
        true := by
    simp [isLegible, isNameChar]
  rw [padRight, isLegible_append, h, hBlanks, Bool.and_self]

------------------------------------------------------------
-- Rows Of A Listing
------------------------------------------------------------

/- A line without breaks that is read as a row. -/
def Stands (line : String) (row : Row) : Prop :=
  row? line.toList = some row ∧ '\n' ∉ line.toList

/- The row of a field that starts at a bit. -/
def fieldAt (start : Nat) (f : Field) : Row :=
  .field (padRight 28 f.name) f.bits f.width (valueText f)
    start

/- The rows of the fields of a record. -/
def fieldRows (r : Record) : List Row :=
  List.zipWith fieldAt
    (Path.offsets (r.fields.map Field.width)) r.fields

/- The row that starts a step. -/
def stepHead (s : Step) : Row :=
  .step s.op.text s.bit s.pathBit
    (s.span.map Span.startLine)

/- The row that starts a path. -/
def pathHead (p : Path) : Row :=
  .path p.id p.thread p.zOrder p.width

/- The rows of a step. -/
def stepRows (s : Step) : List Row :=
  stepHead s :: fieldRows s.record

/- The rows of a path, an empty one at the end. -/
def pathRows (p : Path) : List Row :=
  pathHead p :: p.steps.flatMap stepRows ++ [.blank]

/- The rows of the header, an empty one at the end. -/
def headerRows (h : Header) : List Row :=
  .header h.byteLength :: fieldRows h.record ++ [.blank]

/- All rows of a listing. -/
def rows (h : Header) (paths : List Path) : List Row :=
  headerRows h ++ paths.flatMap pathRows

theorem stands_fieldLine
    (start : Nat)
    {f : Field}
    (h : isLegible f.name = true) :
    Stands (fieldLine start f) (fieldAt start f) := by
  have hName := isLegible_padRight 28 h
  have hValue := isAlphanum_valueText f
  have hText :
      (fieldLine start f).toList =
        "    ".toList ++ ((padRight 28 f.name).toList ++
          (": ".toList ++ ((Bits.text f.bits).toList ++
            (" (width=".toList ++ ((toString f.width).toList ++
              (", value=".toList ++ ((valueText f).toList ++
                (", startbit=".toList ++
                  ((toString start).toList ++
                    ")".toList))))))))) := by
    simp only [fieldLine, String.toList_append,
      List.append_assoc, Text.toString_eq_self]
    rfl
  have hColon := not_mem_of_class (c := ':') rfl hName
  have hComma := not_mem_of_class (c := ',') rfl hValue
  have hBreaks := not_mem_of_class (c := '\n') rfl hName
  rw [Stands, hText]
  refine ⟨(reads_fieldRow hColon hComma f.bits f.width
    start).whole, ?_⟩
  simp only [List.mem_append, not_or]
  exact ⟨by decide, hBreaks, by decide,
    not_mem_of_class rfl (isBit_text f.bits), by decide,
    newline_not_mem_number f.width, by decide,
    not_mem_of_class rfl hValue, by decide,
    newline_not_mem_number start, by decide⟩

/- The name of an operation starts with a letter. -/
theorem stops_opText
    (op : Op)
    (behind : List Char) :
    Stops (· == ' ') (op.text.toList ++ behind) := by
  have hName := isAlpha_text op
  have hSome : op.text.toList ≠ [] := by
    cases op <;>
      (dsimp only [Op.text]
       decide)
  rcases List.exists_cons_of_ne_nil hSome with ⟨c, cs, hText⟩
  rw [hText] at hName ⊢
  rintro d ⟨⟩
  have hAlpha := List.all_eq_true.mp hName c
    (List.mem_cons_self ..)
  refine beq_eq_false_iff_ne.mpr ?_
  rintro rfl
  cases hAlpha

/- A line with two blanks in front is that of a step. -/
theorem row?_two_blanks
    {cs : List Char}
    (h : Stops (· == ' ') cs) :
    row? ("  ".toList ++ cs) = stepRow.whole cs := by
  cases cs with
  | nil => rfl
  | cons c cs =>
      -- With four blanks it would be the line of a field.
      have hc : c ≠ ' ' := by simpa using h c rfl
      change row? (' ' :: ' ' :: c :: cs) = _
      rw [row?]
      intro ds hds
      cases hds
      exact hc rfl

theorem newline_not_mem_lineText
    (line : Option Nat) :
    '\n' ∉ (lineText line).toList := by
  cases line with
  | none => exact List.not_mem_nil
  | some n =>
      rw [toList_lineText_some]
      exact List.not_mem_append (by decide)
        (newline_not_mem_number n)

theorem stepLine_eq
    (s : Step) :
    stepLine s =
      s!"  {s.op.text} @ bit {s.bit} (path bit {s.pathBit})" ++
        lineText (s.span.map Span.startLine) := by
  unfold stepLine
  cases s.span <;> rfl

theorem stands_stepLine
    (s : Step) :
    Stands (stepLine s) (stepHead s) := by
  have hName := isAlpha_text s.op
  have hText :
      (stepLine s).toList =
        "  ".toList ++ (s.op.text.toList ++
          (" @ bit ".toList ++ ((toString s.bit).toList ++
            (" (path bit ".toList ++
              ((toString s.pathBit).toList ++ (")".toList ++
                (lineText (s.span.map
                  Span.startLine)).toList)))))) := by
    rw [stepLine_eq]
    simp only [String.toList_append, List.append_assoc,
      Text.toString_eq_self]
  have hBreaks := not_mem_of_class (c := '\n') rfl hName
  rw [Stands, hText]
  refine ⟨?_, ?_⟩
  · rw [row?_two_blanks (stops_opText s.op _)]
    exact (reads_stepRow hName s.bit s.pathBit _).whole
  · simp only [List.mem_append, not_or]
    exact ⟨by decide, hBreaks, by decide,
      newline_not_mem_number s.bit, by decide,
      newline_not_mem_number s.pathBit, by decide,
      newline_not_mem_lineText _⟩

theorem stands_pathLine
    (p : Path) :
    Stands (pathLine p) (pathHead p) := by
  have hText :
      (pathLine p).toList =
        "path ".toList ++ ((toString p.id).toList ++
          (" (thread ".toList ++ ((toString p.thread).toList ++
            (", z-order ".toList ++
              ((toString p.zOrder).toList ++ (", ".toList ++
                ((toString p.width).toList ++
                  " bits)".toList))))))) := by
    simp only [pathLine, String.toList_append,
      List.append_assoc, Text.toString_eq_self]
  rw [Stands, hText]
  refine ⟨(reads_pathRow p.id p.thread p.zOrder
    p.width).whole, ?_⟩
  simp only [List.mem_append, not_or]
  exact ⟨by decide, newline_not_mem_number p.id, by decide,
    newline_not_mem_number p.thread, by decide,
    newline_not_mem_number p.zOrder, by decide,
    newline_not_mem_number p.width, by decide⟩

theorem stands_headerLine
    (bytes : Nat) :
    Stands s!"context-region: {bytes} bytes"
      (.header bytes) := by
  have hText :
      s!"context-region: {bytes} bytes".toList =
        "context-region: ".toList ++
          ((toString bytes).toList ++ " bytes".toList) := by
    simp only [String.toList_append, List.append_assoc,
      Text.toString_eq_self]
  rw [Stands, hText]
  refine ⟨(reads_headerRow bytes).whole, ?_⟩
  simp only [List.mem_append, not_or]
  exact ⟨by decide, newline_not_mem_number bytes, by decide⟩

theorem stands_blank :
    Stands "" .blank :=
  ⟨rfl, by decide⟩

------------------------------------------------------------
-- Reading A Listing
------------------------------------------------------------

/- The lines of a record are read as its rows. -/
theorem stands_fieldLines
    {r : Record}
    (h : Legible r.fields) :
    List.Forall₂ Stands (fieldLines r) (fieldRows r) := by
  unfold fieldLines fieldRows
  generalize Path.offsets (r.fields.map Field.width) = starts
  generalize r.fields = fields at h ⊢
  induction fields generalizing starts with
  | nil => cases starts <;> exact .nil
  | cons f fields ih =>
      rcases legible_cons.mp h with ⟨hFirst, hRest⟩
      cases starts with
      | nil => exact .nil
      | cons start starts =>
          exact .cons (stands_fieldLine start hFirst)
            (ih starts hRest)

theorem stands_flatMap
    {α : Type}
    {linesOf : α → List String}
    {rowsOf : α → List Row}
    {xs : List α}
    (h : ∀ x ∈ xs,
      List.Forall₂ Stands (linesOf x) (rowsOf x)) :
    List.Forall₂ Stands (xs.flatMap linesOf)
      (xs.flatMap rowsOf) := by
  refine List.rel_flatMap (R := fun x y => x = y ∧ x ∈ xs)
    (List.forall₂_same.mpr fun x hx => ⟨rfl, hx⟩) ?_
  rintro x y ⟨rfl, hx⟩
  exact h x hx

theorem stands_pathLines
    {p : Path}
    (h : ∀ s ∈ p.steps, Legible s.record.fields) :
    List.Forall₂ Stands (pathLines p) (pathRows p) := by
  have hSteps :
      List.Forall₂ Stands (p.steps.flatMap stepLines)
        (p.steps.flatMap stepRows) :=
    stands_flatMap fun s hs =>
      .cons (stands_stepLine s) (stands_fieldLines (h s hs))
  exact .cons (stands_pathLine p)
    (List.rel_append hSteps (.cons stands_blank .nil))

/- The lines of a listing are read as its rows. -/
theorem stands_lines
    {h : Header}
    {paths : List Path}
    (hHeader : Legible h.record.fields)
    (hPaths : ∀ p ∈ paths, ∀ s ∈ p.steps,
      Legible s.record.fields) :
    List.Forall₂ Stands (lines h paths) (rows h paths) := by
  have hFirst :
      List.Forall₂ Stands (headerLines h) (headerRows h) :=
    .cons (stands_headerLine h.byteLength)
      (List.rel_append (stands_fieldLines hHeader)
        (.cons stands_blank .nil))
  exact List.rel_append hFirst
    (stands_flatMap fun p hp => stands_pathLines (hPaths p hp))

theorem mapM_row?_of_stands
    {lines : List String}
    {rows : List Row}
    (h : List.Forall₂ Stands lines rows) :
    (lines.map String.toList).mapM row? = some rows := by
  induction h with
  | nil => rfl
  | cons hFirst _ ih =>
      rw [List.map_cons, List.mapM_cons, hFirst.1, ih]
      rfl

/- A listing is read back from its text. -/
theorem read?_render
    {h : Header}
    {paths : List Path}
    (hHeader : Legible h.record.fields)
    (hPaths : ∀ p ∈ paths, ∀ s ∈ p.steps,
      Legible s.record.fields) :
    read? (render h paths) = some (rows h paths) := by
  have hAll := stands_lines hHeader hPaths
  have hWhole :
      ∀ line ∈ lines h paths, '\n' ∉ line.toList := by
    intro line hLine
    rcases Success.exists_of_forall₂ hAll.flip line hLine
      with ⟨_, -, hStands⟩
    exact hStands.2
  have hText :
      (render h paths).toList =
        ((lines h paths).map String.toList).flatMap
          (· ++ ['\n']) ++ [] := by
    rw [render, String.toList_join]
    simp [List.flatMap_map]
  have hSplit :
      Text.split '\n' (render h paths).toList =
        (lines h paths).map String.toList ++ [[]] := by
    rw [hText]
    refine Text.split_flatMap ?_ List.not_mem_nil
    exact List.forall_mem_map.mpr hWhole
  unfold read?
  rw [hSplit]
  simp [mapM_row?_of_stands hAll]

end Listing

end LightShow
