import LightShow.Source.Span
import LightShow.Text.Bytes

/-
  What the bytes of a text say about its characters.

  An ASCII character is its own byte. The bytes of any other
  character are from 128 on, and all but the first of them
  are continuation bytes. So a class that has all characters
  beyond ASCII, or none of them, can be tested byte by byte,
  and columns can be counted byte by byte.

  Key definitions include:
    * `Text.Settled`

  Main statements:
    * `Text.ofBytes_encode`
    * `Text.takeWhile_encode`
    * `Text.takeWhile_isContinuation`
    * `Position.advanceBytes_encode`
-/

namespace LightShow

namespace Text

------------------------------------------------------------
-- Encoding And Decoding
------------------------------------------------------------

@[simp] theorem encode_nil : encode [] = [] := rfl

theorem encode_cons
    (c : Char)
    (cs : List Char) :
    encode (c :: cs) = String.utf8EncodeChar c ++ encode cs :=
  rfl

theorem encode_append
    (xs ys : List Char) :
    encode (xs ++ ys) = encode xs ++ encode ys :=
  List.flatMap_append

/- The bytes of a text are those of its characters. -/
theorem bytes_eq_encode (s : String) :
    bytes s = encode s.toList := by
  rw [bytes, ← String.utf8Encode_toList, List.utf8Encode,
    List.data_toByteArray, List.toList_toArray]
  rfl

/- Reading bytes back gives the characters back. -/
theorem ofBytes_encode (cs : List Char) :
    ofBytes (encode cs) = String.ofList cs := by
  have hBytes : ByteArray.mk (encode cs).toArray =
      cs.utf8Encode := by
    apply ByteArray.ext
    rw [List.utf8Encode, List.data_toByteArray]
    rfl
  have hValid := ByteArray.isValidUTF8_utf8Encode (l := cs)
  rw [ofBytes, hBytes, String.fromUTF8?, dif_pos hValid]
  rfl

------------------------------------------------------------
-- The Bytes Of One Character
------------------------------------------------------------

theorem isContinuation_iff (b : UInt8) :
    isContinuation b = true ↔
      128 ≤ b.toNat ∧ b.toNat < 192 := by
  have hAll : ∀ n : Fin 256,
      isContinuation (UInt8.ofNat n) = true ↔
        128 ≤ n.val ∧ n.val < 192 := by decide +kernel
  simpa using hAll ⟨b.toNat, b.toNat_lt⟩

/- An ASCII character is one byte, itself. -/
theorem encodeChar_of_ascii
    {c : Char}
    (h : c.toNat < 128) :
    ∃ b, String.utf8EncodeChar c = [b] ∧
      Char.ofUInt8 b = c ∧ isContinuation b = false := by
  have hByte : (UInt8.ofNat c.toNat).toNat = c.toNat := by
    rw [UInt8.toNat_ofNat']
    omega
  refine ⟨UInt8.ofNat c.toNat, ?_, ?_, ?_⟩
  · exact if_pos (Nat.le_of_lt_succ h)
  · apply Char.ext
    apply UInt32.toNat_inj.mp
    exact hByte
  · rw [← Bool.not_eq_true, isContinuation_iff, hByte]
    omega

/- Any other is a lead byte with continuation bytes. -/
theorem encodeChar_of_wide
    {c : Char}
    (h : 128 ≤ c.toNat) :
    ∃ b more, String.utf8EncodeChar c = b :: more ∧
      192 ≤ b.toNat ∧
      ∀ x ∈ more, isContinuation x = true := by
  have hTail (n : Nat) :
      isContinuation (UInt8.ofNat (n % 64 + 128)) = true := by
    rw [isContinuation_iff, UInt8.toNat_ofNat']
    omega
  have hLead (n : Nat) (hLow : 192 ≤ n) (hHigh : n < 256) :
      192 ≤ (UInt8.ofNat n).toNat := by
    rw [UInt8.toNat_ofNat']
    omega
  have hNone : ∀ x ∈ ([] : List UInt8),
      isContinuation x = true := List.forall_mem_nil _
  have hNarrow : ¬c.val.toNat ≤ 127 := Nat.not_le.mpr h
  unfold String.utf8EncodeChar
  dsimp only
  rw [if_neg hNarrow]
  split
  · exact ⟨_, _, rfl, hLead _ (by omega) (by omega),
      List.forall_mem_cons.mpr ⟨hTail _, hNone⟩⟩
  split
  · exact ⟨_, _, rfl, hLead _ (by omega) (by omega),
      List.forall_mem_cons.mpr ⟨hTail _,
        List.forall_mem_cons.mpr ⟨hTail _, hNone⟩⟩⟩
  · exact ⟨_, _, rfl, hLead _ (by omega) (by omega),
      List.forall_mem_cons.mpr ⟨hTail _,
        List.forall_mem_cons.mpr ⟨hTail _,
          List.forall_mem_cons.mpr ⟨hTail _, hNone⟩⟩⟩⟩

/- A character beyond ASCII is none of ASCII. -/
theorem ne_of_wide
    {c d : Char}
    (h : 128 ≤ c.toNat)
    (hAscii : d.toNat < 128) :
    c ≠ d := by
  rintro rfl
  exact absurd hAscii (Nat.not_lt.mpr h)

/- Neither are its bytes. -/
theorem wide_of_mem_encodeChar
    {c : Char}
    (h : 128 ≤ c.toNat)
    {b : UInt8}
    (hMem : b ∈ String.utf8EncodeChar c) :
    128 ≤ (Char.ofUInt8 b).toNat := by
  rcases encodeChar_of_wide h
    with ⟨lead, more, hAll, hLead, hMore⟩
  rw [hAll] at hMem
  change 128 ≤ b.toNat
  rcases List.mem_cons.mp hMem with rfl | hRest
  · omega
  · exact ((isContinuation_iff b).mp (hMore b hRest)).1

------------------------------------------------------------
-- Classes Of Characters
------------------------------------------------------------

/-
  A class that has every character beyond ASCII, or none of
  them, as `beyond` says.
-/
def Settled (p : Char → Bool) (beyond : Bool) : Prop :=
  ∀ c : Char, 128 ≤ c.toNat → p c = beyond

variable {p : Char → Bool} {beyond : Bool}

theorem Settled.not_of_wide
    (h : Settled p false)
    {c : Char}
    (hWide : 128 ≤ c.toNat) :
    ¬p c = true := by
  rw [h c hWide]
  exact Bool.false_ne_true

/- All bytes of a character are in the class, or none is. -/
theorem Settled.of_mem
    (h : Settled p beyond)
    {c : Char}
    {b : UInt8}
    (hMem : b ∈ String.utf8EncodeChar c) :
    p (.ofUInt8 b) = p c := by
  rcases Nat.lt_or_ge c.toNat 128 with hAscii | hWide
  · rcases encodeChar_of_ascii hAscii
      with ⟨x, hAll, hSelf, -⟩
    rw [hAll, List.mem_singleton] at hMem
    rw [hMem, hSelf]
  · rw [h c hWide, h _ (wide_of_mem_encodeChar hWide hMem)]

/- The first byte of a character tells its class. -/
theorem Settled.exists_head
    (h : Settled p beyond)
    (c : Char) :
    ∃ b more, String.utf8EncodeChar c = b :: more ∧
      p (.ofUInt8 b) = p c := by
  cases hBytes : String.utf8EncodeChar c with
  | nil => exact absurd hBytes String.utf8EncodeChar_ne_nil
  | cons b more =>
      refine ⟨b, more, rfl, h.of_mem ?_⟩
      rw [hBytes]
      exact List.mem_cons_self ..

/- A run in the class can be cut off byte by byte. -/
theorem takeWhile_encode
    (h : Settled p beyond)
    (cs : List Char) :
    (encode cs).takeWhile (fun b => p (.ofUInt8 b)) =
      encode (cs.takeWhile p) := by
  induction cs with
  | nil => rfl
  | cons c cs ih =>
      rw [encode_cons]
      cases hClass : p c with
      | true =>
          rw [List.takeWhile_append_of_pos, ih,
            List.takeWhile_cons_of_pos hClass, encode_cons]
          exact fun b hb => (h.of_mem hb).trans hClass
      | false =>
          rcases h.exists_head c with ⟨b, more, hBytes, hHead⟩
          rw [List.takeWhile_cons_of_neg (by simp [hClass]),
            hBytes, List.cons_append,
            List.takeWhile_cons_of_neg
              (by simp [hHead, hClass])]
          rfl

theorem dropWhile_encode
    (h : Settled p beyond)
    (cs : List Char) :
    (encode cs).dropWhile (fun b => p (.ofUInt8 b)) =
      encode (cs.dropWhile p) := by
  have hBytes := List.takeWhile_append_dropWhile
    (p := fun b => p (.ofUInt8 b)) (l := encode cs)
  have hChars := congrArg encode
    (List.takeWhile_append_dropWhile (p := p) (l := cs))
  rw [takeWhile_encode h] at hBytes
  rw [encode_append] at hChars
  exact List.append_cancel_left (hBytes.trans hChars.symm)

/- The first byte of a text tells its first character. -/
theorem head?_encode
    {d : Char}
    (hAscii : d.toNat < 128)
    (cs : List Char) :
    (encode cs).head?.map Char.ofUInt8 = some d ↔
      cs.head? = some d := by
  have hSettled : Settled (· == d) false := by
    intro c hWide
    rw [beq_eq_false_iff_ne]
    exact ne_of_wide hWide hAscii
  cases cs with
  | nil => exact Iff.rfl
  | cons c cs =>
      rcases hSettled.exists_head c
        with ⟨b, more, hBytes, hHead⟩
      have hSame : Char.ofUInt8 b = d ↔ c = d := by
        rw [← beq_iff_eq, hHead, beq_iff_eq]
      rw [encode_cons, hBytes]
      simpa using hSame

/- The continuation bytes in front belong to no character. -/
theorem takeWhile_isContinuation
    (cs : List Char) :
    (encode cs).takeWhile isContinuation = [] := by
  cases cs with
  | nil => rfl
  | cons c cs =>
      have hHead : ∃ b more,
          String.utf8EncodeChar c = b :: more ∧
            isContinuation b = false := by
        rcases Nat.lt_or_ge c.toNat 128 with hAscii | hWide
        · rcases encodeChar_of_ascii hAscii
            with ⟨b, hBytes, -, hNone⟩
          exact ⟨b, [], hBytes, hNone⟩
        · rcases encodeChar_of_wide hWide
            with ⟨b, more, hBytes, hLead, -⟩
          refine ⟨b, more, hBytes, ?_⟩
          rw [← Bool.not_eq_true, isContinuation_iff]
          omega
      rcases hHead with ⟨b, more, hBytes, hNone⟩
      rw [encode_cons, hBytes, List.cons_append]
      exact List.takeWhile_cons_of_neg (by simp [hNone])

end Text

------------------------------------------------------------
-- Places
------------------------------------------------------------

namespace Position

/- Continuation bytes stay in the column they are in. -/
theorem advanceBytes_of_continuation
    (p : Position)
    {bs : List UInt8}
    (h : ∀ b ∈ bs, Text.isContinuation b = true) :
    p.advanceBytes bs = p := by
  induction bs with
  | nil => rfl
  | cons b bs ih =>
      rcases List.forall_mem_cons.mp h with ⟨hFirst, hRest⟩
      have hFeed : Char.ofUInt8 b ≠ '\n' := Text.ne_of_wide
        ((Text.isContinuation_iff b).mp hFirst).1 (by decide)
      have hStay : p.advanceByte b = p := by
        rw [advanceByte, if_neg hFeed, if_pos hFirst]
      rw [advanceBytes, List.foldl_cons, hStay]
      exact ih hRest

/- The bytes of a character lead past one column or line. -/
theorem advanceBytes_encodeChar
    (p : Position)
    (c : Char) :
    p.advanceBytes (String.utf8EncodeChar c) = p.advance c := by
  rcases Nat.lt_or_ge c.toNat 128 with hAscii | hWide
  · rcases Text.encodeChar_of_ascii hAscii
      with ⟨b, hBytes, hSelf, hLead⟩
    simp [hBytes, advanceBytes, advanceByte, advance, hSelf,
      hLead]
  · rcases Text.encodeChar_of_wide hWide
      with ⟨b, more, hBytes, hLead, hMore⟩
    have hStart : p.advanceByte b = p.advance c := by
      have hNone : ¬Text.isContinuation b := by
        rw [Text.isContinuation_iff]
        omega
      have hByte : 128 ≤ (Char.ofUInt8 b).toNat :=
        Text.wide_of_mem_encodeChar hWide
          (hBytes ▸ List.mem_cons_self ..)
      have hFeed := Text.ne_of_wide hByte
        (show '\n'.toNat < 128 by decide)
      rw [advanceByte, if_neg hFeed, if_neg hNone, advance,
        if_neg (Text.ne_of_wide hWide (by decide))]
    rw [hBytes, advanceBytes, List.foldl_cons, hStart]
    exact advanceBytes_of_continuation _ hMore

/- Counting bytes comes to the same place. -/
theorem advanceBytes_encode
    (p : Position)
    (cs : List Char) :
    p.advanceBytes (Text.encode cs) = p.advanceAll cs := by
  induction cs generalizing p with
  | nil => rfl
  | cons c cs ih =>
      rw [Text.encode_cons, advanceBytes, List.foldl_append]
      exact (congrArg (advanceBytes · (Text.encode cs))
        (advanceBytes_encodeChar p c)).trans (ih (p.advance c))

end Position

end LightShow
