/-
  The SHA-256 digest of a byte string.

  Key definitions include:
    * `LightShow.Sha256.pad`
    * `LightShow.Sha256.compress`
    * `LightShow.Sha256.digest`
-/

namespace LightShow

namespace Sha256

------------------------------------------------------------
-- Constants
------------------------------------------------------------

/- The round constants. -/
def roundConstants : List UInt32 :=
  [0x428a2f98, 0x71374491, 0xb5c0fbcf, 0xe9b5dba5,
   0x3956c25b, 0x59f111f1, 0x923f82a4, 0xab1c5ed5,
   0xd807aa98, 0x12835b01, 0x243185be, 0x550c7dc3,
   0x72be5d74, 0x80deb1fe, 0x9bdc06a7, 0xc19bf174,
   0xe49b69c1, 0xefbe4786, 0x0fc19dc6, 0x240ca1cc,
   0x2de92c6f, 0x4a7484aa, 0x5cb0a9dc, 0x76f988da,
   0x983e5152, 0xa831c66d, 0xb00327c8, 0xbf597fc7,
   0xc6e00bf3, 0xd5a79147, 0x06ca6351, 0x14292967,
   0x27b70a85, 0x2e1b2138, 0x4d2c6dfc, 0x53380d13,
   0x650a7354, 0x766a0abb, 0x81c2c92e, 0x92722c85,
   0xa2bfe8a1, 0xa81a664b, 0xc24b8b70, 0xc76c51a3,
   0xd192e819, 0xd6990624, 0xf40e3585, 0x106aa070,
   0x19a4c116, 0x1e376c08, 0x2748774c, 0x34b0bcb5,
   0x391c0cb3, 0x4ed8aa4a, 0x5b9cca4f, 0x682e6ff3,
   0x748f82ee, 0x78a5636f, 0x84c87814, 0x8cc70208,
   0x90befffa, 0xa4506ceb, 0xbef9a3f7, 0xc67178f2]

/- Eight working words. -/
structure State where
  a : UInt32
  b : UInt32
  c : UInt32
  d : UInt32
  e : UInt32
  f : UInt32
  g : UInt32
  h : UInt32
deriving DecidableEq, Repr

/- The words that hashing starts from. -/
def start : State where
  a := 0x6a09e667
  b := 0xbb67ae85
  c := 0x3c6ef372
  d := 0xa54ff53a
  e := 0x510e527f
  f := 0x9b05688c
  g := 0x1f83d9ab
  h := 0x5be0cd19

------------------------------------------------------------
-- Padding
------------------------------------------------------------

/- The bytes of a number, most significant first. -/
def bigEndian (count n : Nat) : List UInt8 :=
  (List.range count).reverse.map fun i =>
    UInt8.ofNat (n / Nat.pow 256 i)

/-
  Append a one bit, zeros and the bit length, so that the
  message fills whole blocks of sixty-four bytes.
-/
def pad (message : List UInt8) : List UInt8 :=
  let n := message.length
  let zeros := (119 - n % 64) % 64
  message ++ 0x80 :: List.replicate zeros 0 ++
    bigEndian 8 (8 * n)

/- Four bytes as a word. -/
def word (a b c d : UInt8) : UInt32 :=
  a.toUInt32 <<< 24 ||| b.toUInt32 <<< 16 |||
    c.toUInt32 <<< 8 ||| d.toUInt32

/- Add the words of bytes to those in front of them. -/
def wordsAfter (words : Array UInt32) :
    List UInt8 → Array UInt32
  | a :: b :: c :: d :: rest =>
      wordsAfter (words.push (word a b c d)) rest
  | _ => words

------------------------------------------------------------
-- Rounds
------------------------------------------------------------

/- Rotate a word to the right. -/
def rotate (x n : UInt32) : UInt32 :=
  x >>> n ||| x <<< (32 - n)

/- The next word of a message schedule. -/
def nextWord (w : Array UInt32) (i : Nat) : UInt32 :=
  let x := w.getD (i + 1) 0
  let y := w.getD (i + 14) 0
  let s0 := rotate x 7 ^^^ rotate x 18 ^^^ x >>> 3
  let s1 := rotate y 17 ^^^ rotate y 19 ^^^ y >>> 10
  w.getD i 0 + s0 + w.getD (i + 9) 0 + s1

/- The sixty-four words of a block. -/
def schedule (block : Array UInt32) : Array UInt32 :=
  (List.range 48).foldl (fun w i => w.push (nextWord w i))
    block

/- One round with a constant and a word of the schedule. -/
def round (s : State) (k w : UInt32) : State :=
  let s1 := rotate s.e 6 ^^^ rotate s.e 11 ^^^ rotate s.e 25
  let ch := (s.e &&& s.f) ^^^ (~~~s.e &&& s.g)
  let t1 := s.h + s1 + ch + k + w
  let s0 := rotate s.a 2 ^^^ rotate s.a 13 ^^^ rotate s.a 22
  let maj :=
    (s.a &&& s.b) ^^^ (s.a &&& s.c) ^^^ (s.b &&& s.c)
  let t2 := s0 + maj
  ⟨t1 + t2, s.a, s.b, s.c, s.d + t1, s.e, s.f, s.g⟩

/- Add two states word by word. -/
def State.add (s t : State) : State :=
  ⟨s.a + t.a, s.b + t.b, s.c + t.c, s.d + t.d,
   s.e + t.e, s.f + t.f, s.g + t.g, s.h + t.h⟩

/- Take in one block of sixteen words. -/
def compress (s : State) (block : Array UInt32) : State :=
  let rounds := roundConstants.zip (schedule block).toList
  s.add (rounds.foldl (fun t (k, w) => round t k w) s)

/- Collect a word, and take in its block once that is full. -/
def feed
    (acc : State × Array UInt32)
    (w : UInt32) : State × Array UInt32 :=
  let block := acc.2.push w
  if block.size = 16 then (compress acc.1 block, #[])
  else (acc.1, block)

/- The digest of a message, thirty-two bytes. -/
def digest (message : List UInt8) : List UInt8 :=
  let words := wordsAfter #[] (pad message)
  let s := (words.foldl feed (start, #[])).1
  [s.a, s.b, s.c, s.d, s.e, s.f, s.g, s.h].flatMap fun w =>
    bigEndian 4 w.toNat

end Sha256

end LightShow
