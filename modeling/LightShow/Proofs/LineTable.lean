import LightShow.Proofs.Bytes
import LightShow.Proofs.Placing

/-
  The table of line starts and the rows of a text.

  Diagnostics quote a line by byte offsets from a table, and
  the scanner counts line feeds. Both speak of the same rows
  of the text: an offset in the table is the length of the
  bytes of all rows before, each with its line feed, so that
  the bytes cut out are those of the row.

  Key definitions include:
    * `SourceText.offsets`

  Main statements:
    * `SourceText.lineStarts_eq`
    * `SourceText.lineCount_eq`
    * `SourceText.line?_eq`
-/

namespace LightShow

namespace SourceText

------------------------------------------------------------
-- The Offsets Of Rows
------------------------------------------------------------

/- Where rows start whose first one starts at an offset. -/
def offsets (offset : Nat) : List (List Char) → List Nat
  | [] => []
  | row :: rows =>
      offset ::
        offsets (offset + (Text.encode row).length + 1) rows

theorem length_offsets
    (offset : Nat)
    (rows : List (List Char)) :
    (offsets offset rows).length = rows.length := by
  induction rows generalizing offset with
  | nil => rfl
  | cons row rows ih => exact congrArg (· + 1) (ih _)

/- The bytes of rows, each with the line feed behind it. -/
def feedBytes (rows : List (List Char)) : List UInt8 :=
  Text.encode (rows.flatMap (· ++ ['\n']))

theorem offsets_append
    (offset : Nat)
    (init rows : List (List Char)) :
    offsets offset (init ++ rows) =
      offsets offset init ++
        offsets (offset + (feedBytes init).length) rows := by
  induction init generalizing offset with
  | nil => rfl
  | cons row init ih =>
      have hBytes : (feedBytes (row :: init)).length =
          (Text.encode row).length + 1 +
            (feedBytes init).length := by
        simp only [feedBytes, List.flatMap_cons,
          Text.encode_append, List.length_append]
        rfl
      rw [List.cons_append, offsets, ih, hBytes, offsets,
        List.cons_append, Nat.add_assoc offset, Nat.add_assoc]

/- Bytes that are no line feed start no line. -/
theorem startsAfter_append
    (offset : Nat)
    {bs : List UInt8}
    (h : ∀ b ∈ bs, Char.ofUInt8 b ≠ '\n')
    (rest : List UInt8) :
    startsAfter offset (bs ++ rest) =
      startsAfter (offset + bs.length) rest := by
  induction bs generalizing offset with
  | nil => rfl
  | cons b bs ih =>
      rcases List.forall_mem_cons.mp h with ⟨hFirst, hRest⟩
      rw [List.cons_append, startsAfter, if_neg hFirst,
        ih _ hRest, List.length_cons, Nat.add_assoc,
        Nat.add_comm 1]

/- The bytes of a character other than a line feed are none. -/
theorem ne_newline_of_mem_encodeChar
    {c : Char}
    (h : c ≠ '\n')
    {b : UInt8}
    (hMem : b ∈ String.utf8EncodeChar c) :
    Char.ofUInt8 b ≠ '\n' := by
  have hSettled : Text.Settled (· != '\n') true :=
    Text.settled_ne_newline
  rw [← bne_iff_ne, hSettled.of_mem hMem, bne_iff_ne]
  exact h

/- Line feeds in the bytes start the rows of the text. -/
theorem startsAfter_encode
    (offset : Nat)
    (cs : List Char) :
    offset :: startsAfter offset (Text.encode cs) =
      offsets offset (splitLines cs) := by
  induction cs generalizing offset with
  | nil => rfl
  | cons c cs ih =>
      rw [splitLines, Text.split_cons, ← splitLines]
      split
      · rename_i hFeed
        rw [hFeed]
        exact congrArg (offset :: ·) (ih (offset + 1))
      · rename_i hOther
        have hRest := ih
          (offset + (String.utf8EncodeChar c).length)
        rw [Text.encode_cons, startsAfter_append _
          fun _ => ne_newline_of_mem_encodeChar hOther]
        cases hRows : splitLines cs with
        | nil => exact absurd hRows (Text.split_ne_nil _ cs)
        | cons row rows =>
            rw [hRows, offsets] at hRest
            rw [(List.cons.inj hRest).2, Text.consPart, offsets,
              Text.encode_cons, List.length_append,
              Nat.add_assoc offset]

------------------------------------------------------------
-- The Table
------------------------------------------------------------

/- The table has the offsets of the rows. -/
theorem lineStarts_eq (s : SourceText) :
    s.lineStarts = offsets 0 (splitLines s.text.toList) := by
  rw [lineStarts, Text.bytes_eq_encode, startsAfter_encode]

/- There are as many lines as rows. -/
theorem lineCount_eq (s : SourceText) :
    s.lineCount = (splitLines s.text.toList).length := by
  rw [lineCount, lineStarts_eq, length_offsets]

/-
  A row starts at its offset in the table and ends before
  its line feed, or at the end of the text.
-/
theorem exists_bytes_of_row?
    {s : SourceText}
    {n : Nat}
    {row : List Char}
    (h : s.row? (n + 1) = some row) :
    ∃ front back,
      Text.bytes s.text = front ++ (Text.encode row ++ back) ∧
        s.lineStarts[n]? = some front.length ∧
        (s.lineStarts[n + 1]?.map (· - 1)).getD
            (Text.bytes s.text).length =
          front.length + (Text.encode row).length := by
  rcases exists_init_of_row? h
    with ⟨init, tail, hRows, hIndex, -⟩
  have hLength : (offsets 0 init).length = n := by
    rw [length_offsets]
    exact Nat.succ.inj hIndex
  have hStarts : s.lineStarts = offsets 0 init ++
      offsets (feedBytes init).length (row :: tail) := by
    rw [lineStarts_eq, hRows, offsets_append, Nat.zero_add]
  have hText := Text.join_split '\n' s.text.toList
  rw [← splitLines, hRows, Text.join_append] at hText
  have hStart : s.lineStarts[n]? =
      some (feedBytes init).length := by
    rw [hStarts, List.getElem?_append_right (by omega),
      hLength, Nat.sub_self]
    rfl
  have hNext : s.lineStarts[n + 1]? =
      (offsets ((feedBytes init).length +
        (Text.encode row).length + 1) tail).head? := by
    rw [hStarts, List.getElem?_append_right (by omega),
      hLength, Nat.add_sub_cancel_left, List.head?_eq_getElem?]
    rfl
  refine ⟨feedBytes init, ?_⟩
  rw [Text.bytes_eq_encode, ← hText, Text.encode_append, hNext]
  cases tail with
  | nil =>
      refine ⟨[], ?_, hStart, ?_⟩
      · rw [List.append_nil]
        rfl
      · exact List.length_append
  | cons next tail =>
      refine ⟨Text.encode
        ('\n' :: Text.join '\n' (next :: tail)),
        ?_, hStart, rfl⟩
      exact congrArg (feedBytes init ++ ·)
        (Text.encode_append row _)

/- A line is its row without the returns at the end. -/
theorem line?_eq (s : SourceText) (n : Nat) :
    s.line? n =
      (s.row? n).map fun row =>
        String.ofList (dropReturns row) := by
  cases n with
  | zero => rfl
  | succ n =>
      cases hRow : s.row? (n + 1) with
      | none =>
          have hNone : s.lineStarts[n]? = none := by
            rw [List.getElem?_eq_none_iff, lineStarts_eq,
              length_offsets]
            exact List.getElem?_eq_none_iff.mp hRow
          rw [line?, hNone]
          rfl
      | some row =>
          rcases exists_bytes_of_row? hRow
            with ⟨front, back, hBytes, hStart, hStop⟩
          rw [line?]
          dsimp only
          rw [hStart, Option.map_some, hStop, hBytes,
            List.extract_eq_take_drop, List.drop_left,
            Nat.add_sub_cancel_left, List.take_left,
            Text.ofBytes_encode, String.toList_ofList]
          rfl

end SourceText

end LightShow
