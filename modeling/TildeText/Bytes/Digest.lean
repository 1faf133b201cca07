import TildeText.Bytes

namespace TildeText.Bytes

structure Words3 where
  a : UInt32
  b : UInt32
  c : UInt32

namespace Words3

def mix (w : Words3) : Words3 :=
  let a := (w.a - w.b - w.c) ^^^ (w.c >>> 13)
  let b := (w.b - w.c - a) ^^^ (a <<< 8)
  let c := (w.c - a - b) ^^^ (b >>> 13)
  let a := (a - b - c) ^^^ (c >>> 12)
  let b := (b - c - a) ^^^ (a <<< 16)
  let c := (c - a - b) ^^^ (b >>> 5)
  let a := (a - b - c) ^^^ (c >>> 3)
  let b := (b - c - a) ^^^ (a <<< 10)
  let c := (c - a - b) ^^^ (b >>> 15)
  ⟨a, b, c⟩

def add (w : Words3) (a b c : UInt32) : Words3 := ⟨w.a + a, w.b + b, w.c + c⟩

end Words3

def word (b0 b1 b2 b3 : UInt8) : UInt32 :=
  b0.toUInt32 ||| b1.toUInt32 <<< 8 ||| b2.toUInt32 <<< 16 ||| b3.toUInt32 <<< 24

/-- Takes in the rest of a text, fewer than twelve bytes; the lowest byte of the third word is left
to the length. -/
def absorbRest (length : Nat) (w : Words3) (rest : Bytes) : Words3 :=
  let k := fun i => rest.getD i 0
  (w.add (word (k 0) (k 1) (k 2) (k 3)) (word (k 4) (k 5) (k 6) (k 7))
    (UInt32.ofNat length + word 0 (k 8) (k 9) (k 10))).mix

def absorb (length : Nat) (w : Words3) : Bytes → Words3
  | b0 :: b1 :: b2 :: b3 :: b4 :: b5 :: b6 :: b7 :: b8 :: b9 :: b10 :: b11 :: rest =>
    absorb length
      (w.add (word b0 b1 b2 b3) (word b4 b5 b6 b7) (word b8 b9 b10 b11)).mix rest
  | rest => absorbRest length w rest

def digest (s : Bytes) : UInt32 := (absorb s.length ⟨0, 0xdeadbead, 0xcafeb00b⟩ s).c

end TildeText.Bytes
