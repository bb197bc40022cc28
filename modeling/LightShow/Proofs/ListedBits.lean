import LightShow.Proofs.ListedRows
import LightShow.Proofs.PlacedShows

/-
  A listing describes the image that it was made with.

  The bits printed on the rows are those of the image up to
  the filler of the last packet, and every number on a row
  counts printed bits: those before a step or a field, or
  those of a path.

  Key definitions include:
    * `Listing.printed`
    * `Listing.Behind`
    * `Listing.RowAt`
    * `Listing.Describes`

  Main statements:
    * `Listing.rowAt_of_rows`
    * `Listing.describes_rows`
    * `Show.listing_describes_image`
-/

namespace LightShow

namespace Listing

open LightShow.Path (LaidOutFrom placeFrom)

------------------------------------------------------------
-- What Rows Print
------------------------------------------------------------

/- The bits on a row. -/
def Row.bits : Row → Bits
  | .field _ bits _ _ _ => bits
  | _ => []

/- Whether a row starts a path. -/
def Row.isPath : Row → Bool
  | .path _ _ _ _ => true
  | _ => false

/- Whether a row starts the fields of a record. -/
def Row.isRecord : Row → Bool
  | .header _ => true
  | .step _ _ _ _ => true
  | _ => false

/- The bits printed on some rows, in order. -/
def printed (rows : List Row) : Bits :=
  rows.flatMap Row.bits

/- Rows since the first path among them. -/
def sincePaths (rows : List Row) : List Row :=
  rows.dropWhile fun row => !row.isPath

/- Rows up to the first path among them. -/
def upToPath (rows : List Row) : List Row :=
  rows.takeWhile fun row => !row.isPath

/- The rows behind the last row of a kind. -/
def Behind
    (kind : Row → Bool)
    (rows since : List Row) : Prop :=
  ∃ front head,
    rows = front ++ head :: since ∧
      kind head = true ∧
      ∀ row ∈ since, kind row = false

/- What the rows of a listing have to do with an image. -/
structure Describes
    (rows : List Row)
    (s : Show) : Prop where
  /- The rows print the header and the paths. -/
  bits :
    printed rows =
      (Bits.ofBytes s.image).take
        (8 * (s.headerBytes + s.instructionBytes))
  /- Steps count the bits of the paths and of their path. -/
  steps : ∀ before after name bit pathBit line,
    rows = before ++ .step name bit pathBit line :: after →
    (printed (sincePaths before)).length = bit ∧
      ∃ since,
        Behind Row.isPath before since ∧
          (printed since).length = pathBit
  /- Paths count the bits up to the next path. -/
  paths : ∀ before after id thread zOrder width,
    rows = before ++ .path id thread zOrder width :: after →
    (printed (upToPath after)).length = width
  /- Fields count their bits and those of their record. -/
  fields : ∀ before after name bits width value start,
    rows =
      before ++ .field name bits width value start :: after →
    bits.length = width ∧
      ∃ since,
        Behind Row.isRecord before since ∧
          (printed since).length = start

@[simp] theorem printed_cons
    (row : Row)
    (rows : List Row) :
    printed (row :: rows) = row.bits ++ printed rows :=
  rfl

@[simp] theorem printed_append
    (first second : List Row) :
    printed (first ++ second) =
      printed first ++ printed second :=
  List.flatMap_append

theorem printed_flatMap
    {α : Type}
    {rowsOf : α → List Row}
    {bitsOf : α → Bits}
    (h : ∀ x, printed (rowsOf x) = bitsOf x)
    (xs : List α) :
    printed (xs.flatMap rowsOf) = xs.flatMap bitsOf := by
  rw [printed, List.flatMap_assoc]
  exact List.flatMap_congr fun x _ => h x

/- Fields stand behind the widths before them. -/
theorem fieldRows_eq_placeFrom
    (r : Record) :
    fieldRows r =
      placeFrom (fun f start => fieldAt start f) Field.width 0
        r.fields := by
  rw [← Path.zipWith_offsets, fieldRows, List.zipWith_comm]

theorem printed_placeFrom
    (start : Nat)
    (fields : List Field) :
    printed (placeFrom (fun f start => fieldAt start f)
        Field.width start fields) =
      fields.flatMap Field.bits := by
  induction fields generalizing start with
  | nil => rfl
  | cons f fields ih =>
      rw [placeFrom, printed_cons, ih, List.flatMap_cons]
      rfl

theorem printed_fieldRows
    (r : Record) :
    printed (fieldRows r) = r.bits := by
  rw [fieldRows_eq_placeFrom, printed_placeFrom]
  rfl

theorem printed_stepRows
    (s : Step) :
    printed (stepRows s) = s.record.bits :=
  printed_fieldRows s.record

theorem printed_steps
    (steps : List Step) :
    printed (steps.flatMap stepRows) =
      steps.flatMap fun s => s.record.bits :=
  printed_flatMap printed_stepRows steps

theorem printed_pathRows
    (p : Path) :
    printed (pathRows p) = Placed.pathBits p := by
  have hBlank : printed [Row.blank] = [] := rfl
  rw [pathRows, List.cons_append, printed_cons,
    printed_append, printed_steps, hBlank, List.append_nil]
  rfl

theorem printed_paths
    (paths : List Path) :
    printed (paths.flatMap pathRows) =
      Placed.instructionBits paths :=
  printed_flatMap printed_pathRows paths

/- All rows print the header and the paths. -/
theorem printed_rows
    (h : Header)
    (paths : List Path) :
    printed (rows h paths) =
      h.record.bits ++ Placed.instructionBits paths := by
  have hBlank : printed [Row.blank] = [] := rfl
  have hHeader : printed (headerRows h) = h.record.bits := by
    rw [headerRows, List.cons_append, printed_cons,
      printed_append, printed_fieldRows, hBlank,
      List.append_nil]
    rfl
  rw [rows, printed_append, hHeader, printed_paths]

theorem length_printed_steps
    (steps : List Step) :
    (printed (steps.flatMap stepRows)).length =
      total (steps.map Step.width) := by
  rw [printed_steps]
  exact Placed.length_pathBits ⟨0, 0, 0, steps⟩

------------------------------------------------------------
-- Where Rows Stand
------------------------------------------------------------

/- A place in two lists is a place in one of them. -/
theorem append_eq_append_cons
    {α : Type}
    {first second before after : List α}
    {a : α}
    (h : first ++ second = before ++ a :: after) :
    (∃ right,
      first = before ++ a :: right ∧
        after = right ++ second) ∨
      ∃ left,
        before = first ++ left ∧
          second = left ++ a :: after := by
  rcases List.append_eq_append_iff.mp h with hFirst | hSecond
  · rcases hFirst with ⟨left, hBefore, hSecond⟩
    exact .inr ⟨left, hBefore, hSecond⟩
  · rcases hSecond with ⟨right, hFirst, hAfter⟩
    cases right with
    | nil =>
        refine .inr ⟨[], ?_, ?_⟩
        · simpa using hFirst.symm
        · simpa using hAfter.symm
    | cons b right =>
        rw [List.cons_append, List.cons.injEq] at hAfter
        rcases hAfter with ⟨rfl, hAfter⟩
        exact .inl ⟨right, hFirst, hAfter⟩

/- A place in joined lists is a place in one of them. -/
theorem flatMap_eq_append_cons
    {α β : Type}
    {f : α → List β}
    {xs : List α}
    {before after : List β}
    {b : β}
    (h : xs.flatMap f = before ++ b :: after) :
    ∃ front x back left right,
      xs = front ++ x :: back ∧
        f x = left ++ b :: right ∧
        before = front.flatMap f ++ left ∧
        after = right ++ back.flatMap f := by
  induction xs generalizing before with
  | nil => simp at h
  | cons x xs ih =>
      rw [List.flatMap_cons] at h
      rcases append_eq_append_cons h with hFirst | hRest
      · rcases hFirst with ⟨right, hRight, hAfter⟩
        exact ⟨[], x, xs, before, right, rfl, hRight, rfl,
          hAfter⟩
      · rcases hRest with ⟨left, hLeft, hSecond⟩
        rcases ih hSecond
          with ⟨front, y, back, l, right, rfl, hy, rfl, hAfter⟩
        refine ⟨x :: front, y, back, l, right, rfl, hy, ?_,
          hAfter⟩
        rw [hLeft, List.flatMap_cons, List.append_assoc]

/- The places of rows in a listing. -/
inductive RowAt
    (h : Header)
    (paths : List Path) :
    List Row → Row → List Row → Prop
  | header
      (after : List Row) :
      RowAt h paths [] (.header h.byteLength) after
  | blank
      (before after : List Row) :
      RowAt h paths before .blank after
  | path
      {front back : List Path}
      {p : Path}
      (hPaths : paths = front ++ p :: back) :
      RowAt h paths
        (headerRows h ++ front.flatMap pathRows)
        (pathHead p)
        (p.steps.flatMap stepRows ++
          .blank :: back.flatMap pathRows)
  | step
      {front back : List Path}
      {p : Path}
      {earlier later : List Step}
      {s : Step}
      (hPaths : paths = front ++ p :: back)
      (hSteps : p.steps = earlier ++ s :: later)
      (after : List Row) :
      RowAt h paths
        (headerRows h ++ (front.flatMap pathRows ++
          pathHead p :: earlier.flatMap stepRows))
        (stepHead s)
        after
  | field
      {r : Record}
      {head row : Row}
      {since rest : List Row}
      (front : List Row)
      (hHead : head.isRecord = true)
      (hFields : fieldRows r = since ++ row :: rest)
      (after : List Row) :
      RowAt h paths (front ++ head :: since) row after

/- The rows of a step are its first row and its fields. -/
theorem rowAt_of_steps
    {h : Header}
    {paths front back : List Path}
    {p : Path}
    (hPaths : paths = front ++ p :: back)
    {before after : List Row}
    {row : Row}
    (hRows :
      p.steps.flatMap stepRows = before ++ row :: after)
    (behind : List Row) :
    RowAt h paths
      (headerRows h ++ (front.flatMap pathRows ++
        pathHead p :: before))
      row behind := by
  rcases flatMap_eq_append_cons hRows
    with ⟨earlier, s, later, left, right, hSteps, hStep, rfl,
      -⟩
  -- Nothing of the step stands before its first row.
  cases left with
  | nil =>
      cases hStep
      rw [List.append_nil]
      exact .step hPaths hSteps behind
  | cons head since =>
      rcases List.cons.inj hStep with ⟨rfl, hFields⟩
      have hRow :
          RowAt h paths
            (headerRows h ++ (front.flatMap pathRows ++
              pathHead p :: earlier.flatMap stepRows) ++
                stepHead s :: since)
            row behind :=
        .field _ rfl hFields behind
      simpa using hRow

/- The rows of a path are its first row and its steps. -/
theorem rowAt_of_path
    {h : Header}
    {paths front back : List Path}
    {p : Path}
    (hPaths : paths = front ++ p :: back)
    {before after : List Row}
    {row : Row}
    (hRows : pathRows p = before ++ row :: after) :
    RowAt h paths
      (headerRows h ++ (front.flatMap pathRows ++ before))
      row (after ++ back.flatMap pathRows) := by
  cases before with
  | nil =>
      cases hRows
      have hRow := RowAt.path (h := h) hPaths
      simpa using hRow
  | cons head before =>
      rcases List.cons.inj hRows with ⟨rfl, hRest⟩
      rcases append_eq_append_cons hRest with hSteps | hBlank
      · rcases hSteps with ⟨right, hSteps, rfl⟩
        exact rowAt_of_steps hPaths hSteps _
      · rcases hBlank with ⟨left, rfl, hLast⟩
        cases left with
        | nil =>
            cases hLast
            exact .blank _ _
        | cons b left => simp at hLast

/- The rows of the header are its first row and fields. -/
theorem rowAt_of_header
    {h : Header}
    (paths : List Path)
    {before after : List Row}
    {row : Row}
    (hRows : headerRows h = before ++ row :: after)
    (behind : List Row) :
    RowAt h paths before row behind := by
  cases before with
  | nil =>
      cases hRows
      exact .header behind
  | cons head before =>
      rcases List.cons.inj hRows with ⟨rfl, hRest⟩
      rcases append_eq_append_cons hRest with hFields | hBlank
      · rcases hFields with ⟨right, hFields, -⟩
        exact .field [] rfl hFields behind
      · rcases hBlank with ⟨left, rfl, hLast⟩
        cases left with
        | nil =>
            cases hLast
            exact .blank _ _
        | cons b left => simp at hLast

/- Every row of a listing stands at one of these places. -/
theorem rowAt_of_rows
    {h : Header}
    {paths : List Path}
    {before after : List Row}
    {row : Row}
    (hRows : rows h paths = before ++ row :: after) :
    RowAt h paths before row after := by
  rcases append_eq_append_cons hRows with hHeader | hPath
  · rcases hHeader with ⟨right, hHeader, -⟩
    exact rowAt_of_header paths hHeader after
  · rcases hPath with ⟨left, rfl, hPath⟩
    rcases flatMap_eq_append_cons hPath
      with ⟨front, p, back, before, right, hPaths, hRow, rfl,
        rfl⟩
    exact rowAt_of_path hPaths hRow

------------------------------------------------------------
-- What Rows Count
------------------------------------------------------------

variable {h : Header}
variable {encoded paths : List Path}
variable {before after : List Row}

/- The rows of a record are those of its fields. -/
theorem exists_of_mem_fieldRows
    {r : Record}
    {row : Row}
    (hRow : row ∈ fieldRows r) :
    ∃ f start, row = fieldAt start f := by
  rw [fieldRows_eq_placeFrom] at hRow
  rcases Path.mem_placeFrom hRow with ⟨f, -, start, rfl⟩
  exact ⟨f, start, rfl⟩

theorem isPath_of_mem_fieldRows
    {r : Record}
    {row : Row}
    (hRow : row ∈ fieldRows r) :
    row.isPath = false := by
  rcases exists_of_mem_fieldRows hRow with ⟨f, start, rfl⟩
  rfl

/- A field counts the bits of those before it. -/
theorem fieldRows_eq_append
    {r : Record}
    {since rest : List Row}
    {row : Row}
    (hFields : fieldRows r = since ++ row :: rest) :
    ∃ f,
      row = fieldAt (printed since).length f ∧
        ∀ row ∈ since, row.isRecord = false := by
  have hMem : ∀ row ∈ since, row ∈ fieldRows r := by
    rw [hFields]
    exact fun row hRow => List.mem_append_left _ hRow
  rw [fieldRows_eq_placeFrom] at hFields
  rcases Path.placeFrom_eq_append hFields
    with ⟨earlier, f, later, hAll, hLength, rfl⟩
  have hSince :
      placeFrom (fun f start => fieldAt start f) Field.width 0
        earlier = since := by
    rw [hAll, Path.placeFrom_append] at hFields
    exact List.append_inj_left hFields (by simp [hLength])
  have hCount :
      (printed since).length =
        total (earlier.map Field.width) := by
    rw [← hSince, printed_placeFrom]
    exact Record.length_bits ⟨earlier⟩
  refine ⟨f, by rw [hCount, Nat.zero_add], ?_⟩
  intro row hRow
  rcases exists_of_mem_fieldRows (hMem row hRow)
    with ⟨g, start, rfl⟩
  rfl

theorem isPath_of_mem_steps
    {steps : List Step}
    {row : Row}
    (hRow : row ∈ steps.flatMap stepRows) :
    row.isPath = false := by
  rcases List.mem_flatMap.mp hRow with ⟨s, -, hRow⟩
  rcases List.mem_cons.mp hRow with rfl | hField
  · rfl
  · exact isPath_of_mem_fieldRows hField

theorem isPath_of_mem_headerRows
    {row : Row}
    (hRow : row ∈ headerRows h) :
    row.isPath = false := by
  rcases List.mem_append.mp hRow with hFirst | hBlank
  · rcases List.mem_cons.mp hFirst with rfl | hField
    · rfl
    · exact isPath_of_mem_fieldRows hField
  · rw [List.mem_singleton.mp hBlank]
    rfl

/- The instruction region starts behind the header. -/
theorem sincePaths_rows
    (front : List Path)
    (p : Path)
    (rest : List Row) :
    sincePaths (headerRows h ++
        (front.flatMap pathRows ++ pathHead p :: rest)) =
      front.flatMap pathRows ++ pathHead p :: rest := by
  unfold sincePaths
  rw [List.dropWhile_append_of_pos]
  · cases front <;> rfl
  · intro row hRow
    rw [isPath_of_mem_headerRows hRow]
    rfl

theorem upToPath_rows
    (p : Path)
    (back : List Path) :
    upToPath (p.steps.flatMap stepRows ++
        .blank :: back.flatMap pathRows) =
      p.steps.flatMap stepRows ++ [.blank] := by
  unfold upToPath
  rw [List.takeWhile_append_of_pos]
  · cases back <;> rfl
  · intro row hRow
    rw [isPath_of_mem_steps hRow]
    rfl

/- A step lies behind the paths and the steps before it. -/
theorem counts_of_step
    (hLaid : LaidOutFrom 0 encoded paths)
    {name : String}
    {bit pathBit : Nat}
    {line : Option Nat}
    (hRow : RowAt h paths before
      (.step name bit pathBit line) after) :
    (printed (sincePaths before)).length = bit ∧
      ∃ since,
        Behind Row.isPath before since ∧
          (printed since).length = pathBit := by
  generalize hStep : Row.step name bit pathBit line = row
    at hRow
  cases hRow with
  | @step front back p earlier later s hPaths hSteps =>
      cases hStep
      rcases hLaid.laidOut_of_append hPaths
        with ⟨_, q, _, -, -, hPath⟩
      rcases hPath.address hSteps with ⟨hPathBit, hBit⟩
      refine ⟨?_, earlier.flatMap stepRows, ?_, ?_⟩
      · rw [sincePaths_rows, printed_append,
          List.length_append, printed_paths, printed_cons,
          List.length_append, length_printed_steps,
          Placed.length_instructionBits, hBit, hPathBit]
        simp [pathHead, Row.bits]
      · exact ⟨headerRows h ++ front.flatMap pathRows,
          pathHead p, by simp, rfl,
          fun row => isPath_of_mem_steps⟩
      · rw [length_printed_steps, hPathBit]
  | field front hHead hFields =>
      rcases fieldRows_eq_append hFields with ⟨f, rfl, -⟩
      cases hStep
  | _ => cases hStep

/- A path has the width of its steps. -/
theorem counts_of_path
    {id thread zOrder width : Nat}
    (hRow : RowAt h paths before
      (.path id thread zOrder width) after) :
    (printed (upToPath after)).length = width := by
  generalize hPath : Row.path id thread zOrder width = row
    at hRow
  cases hRow with
  | @path front back p hPaths =>
      cases hPath
      rw [upToPath_rows, printed_append, List.length_append,
        length_printed_steps]
      rfl
  | field front hHead hFields =>
      rcases fieldRows_eq_append hFields with ⟨f, rfl, -⟩
      cases hPath
  | _ => cases hPath

/- A field lies behind those of the same record before. -/
theorem counts_of_field
    {name value : String}
    {bits : Bits}
    {width start : Nat}
    (hRow : RowAt h paths before
      (.field name bits width value start) after) :
    bits.length = width ∧
      ∃ since,
        Behind Row.isRecord before since ∧
          (printed since).length = start := by
  generalize hField : Row.field name bits width value start =
    row at hRow
  cases hRow with
  | @field r head row since rest front hHead hFields =>
      rcases fieldRows_eq_append hFields
        with ⟨f, rfl, hSince⟩
      cases hField
      exact ⟨rfl, since, ⟨front, head, rfl, hHead, hSince⟩,
        rfl⟩
  | _ => cases hField

/- The rows of placed paths describe their image. -/
theorem describes_rows
    {t : Target}
    {p : Placed}
    {s : Show}
    (hPackets : t.device.usbPacketBytes ≠ 0)
    (hMeasured : p.Measured encoded)
    (hImage : s.image = p.image t)
    (hHeader : s.headerBytes = p.header.byteLength)
    (hRegion : s.instructionBytes = p.header.instructionBytes) :
    Describes (rows p.header p.paths) s := by
  rcases Placed.exists_image hPackets hMeasured.header
    hMeasured.region with ⟨count, -, -, hBits, -⟩
  have hLength :
      (p.header.record.bits ++
        Placed.instructionBits p.paths).length =
        8 * (p.header.byteLength +
          p.header.instructionBytes) := by
    rw [List.length_append, hMeasured.header,
      hMeasured.region, Nat.mul_add]
  exact {
    bits := by
      rw [printed_rows, hImage, hHeader, hRegion, hBits,
        List.take_left' hLength]
    steps := fun _ _ _ _ _ _ hRows =>
      counts_of_step hMeasured.laid (rowAt_of_rows hRows)
    paths := fun _ _ _ _ _ _ hRows =>
      counts_of_path (rowAt_of_rows hRows)
    fields := fun _ _ _ _ _ _ _ hRows =>
      counts_of_field (rowAt_of_rows hRows) }

end Listing

------------------------------------------------------------
-- Listings Of Shows
------------------------------------------------------------

namespace Show

/-
  The listing of a show that was built is read back from its
  text, and describes the image of the show.
-/
theorem listing_describes_image
    {t : Target}
    {is : List Instruction}
    {s : Show}
    {placed : Placed}
    (h : buildWith t is = .ok (s, placed)) :
    ∃ rows,
      Listing.read? placed.listing = some rows ∧
        Listing.Describes rows s := by
  rcases buildWith_eq_ok h
    with ⟨scheduled, encoded, usage, hCheck, hScheduled,
      hEncoded, hPaths, hHeader, -, hShow⟩
  rcases measured_of_buildWith h
    with ⟨_, _, hScheduled', hEncoded', -, hMeasured⟩
  cases hScheduled.symm.trans hScheduled'
  cases hEncoded.symm.trans hEncoded'
  have hPackets := Target.usbPacketBytes_ne_zero hCheck
  refine ⟨_, Listing.read?_render
    (Header.ensures_ofPaths _ _ _ hHeader)
    (hMeasured.laid.legible hEncoded),
    Listing.describes_rows hPackets hMeasured ?_ ?_ ?_⟩ <;>
    rw [hShow]

/- Two paths that are listed. -/
theorem listing_describes_image_loop :
    ∃ s placed,
      buildWith loopTarget loopInstructions =
          .ok (s, placed) ∧
        ∃ rows,
          Listing.read? placed.listing = some rows ∧
            Listing.Describes rows s := by
  cases h : buildWith loopTarget loopInstructions with
  | error e =>
      have hOk := isOk_build_loop
      rw [build, h] at hOk
      cases hOk
  | ok made =>
      exact ⟨made.1, made.2, rfl, listing_describes_image h⟩

end Show

end LightShow
