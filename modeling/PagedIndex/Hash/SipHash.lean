import PagedIndex.Bytes.LittleEndian

/-!
# SipHash-1-3

A keyed 64-bit hash of a list of bytes: four words of state, one round for every eight bytes, three
rounds at the end. The last block holds the bytes that are left over and, in its top byte, the length.
-/

namespace PagedIndex.SipHash

/-- The four words of the state. -/
structure State where
  a : UInt64
  b : UInt64
  c : UInt64
  d : UInt64

/-- Rotates a word to the left by `n` bits, `0 < n < 64`. -/
def rotate (x : UInt64) (n : UInt64) : UInt64 := (x <<< n) ||| (x >>> (64 - n))

/-- Mixes the state once. -/
def round (s : State) : State :=
  let a := s.a + s.b
  let b := rotate s.b 13 ^^^ a
  let a := rotate a 32
  let c := s.c + s.d
  let d := rotate s.d 16 ^^^ c
  let a := a + d
  let d := rotate d 21 ^^^ a
  let c := c + b
  let b := rotate b 17 ^^^ c
  let c := rotate c 32
  { a, b, c, d }

/-- The state for a key of two words. -/
def start (k0 k1 : UInt64) : State :=
  { a := k0 ^^^ 0x736f6d6570736575
    b := k1 ^^^ 0x646f72616e646f6d
    c := k0 ^^^ 0x6c7967656e657261
    d := k1 ^^^ 0x7465646279746573 }

/-- Takes one block of eight bytes into the state. -/
def absorb (s : State) (block : UInt64) : State :=
  let s := round { s with d := s.d ^^^ block }
  { s with a := s.a ^^^ block }

/-- Takes all bytes into the state; `length` is the length of the whole input. -/
def absorbAll (length : Nat) (s : State) (bytes : List UInt8) : State :=
  match bytes with
  | b0 :: b1 :: b2 :: b3 :: b4 :: b5 :: b6 :: b7 :: rest =>
    let block := Bytes.LittleEndian.toNat [b0, b1, b2, b3, b4, b5, b6, b7]
    absorbAll length (absorb s (UInt64.ofNat block)) rest
  | tail =>
    absorb s (UInt64.ofNat (Bytes.LittleEndian.toNat tail + (length % 256) <<< 56))

/-- The hash of some bytes under a key of two words. -/
def hash (k0 k1 : UInt64) (bytes : List UInt8) : UInt64 :=
  let s := absorbAll bytes.length (start k0 k1) bytes
  let s := round (round (round { s with c := s.c ^^^ 0xFF }))
  s.a ^^^ s.b ^^^ s.c ^^^ s.d

end PagedIndex.SipHash
