import TildeText.Bytes

namespace TildeText.Bytes

def isContinuation (b : UInt8) : Bool := b &&& 0xc0 == 0x80

def announced (b : UInt8) : Nat :=
  if b < 0xc0 then 0 else if b < 0xe0 then 1 else if b < 0xf0 then 2 else 3

def isLoneContinuation : Bytes → Bool
  | [b] => isContinuation b
  | _ => false

/-- Puts a byte before a text that is already cut. A continuation byte announces nothing, so the
ones that the byte announces are the next characters, each by itself. -/
def attach (b : UInt8) (cs : List Bytes) : List Bytes :=
  let n := announced b
  let own := cs.take n
  if own.length = n && own.all isLoneContinuation then (b :: own.flatten) :: cs.drop n
  else [b] :: cs

def characters (s : Bytes) : List Bytes := s.foldr attach []

theorem flatten_attach (b : UInt8) (cs : List Bytes) : (attach b cs).flatten = b :: cs.flatten := by
  rw [attach]
  split
  · rw [List.flatten_cons, List.cons_append, ← List.flatten_append, List.take_append_drop]
  · rfl

@[simp] theorem flatten_characters (s : Bytes) : (characters s).flatten = s := by
  induction s with
  | nil => rfl
  | cons b s ih =>
    rw [characters] at ih ⊢
    rw [List.foldr_cons, flatten_attach, ih]

def characterCount (s : Bytes) : Nat := (characters s).length

def substring? (s : Bytes) (start count : Nat) : Option Bytes :=
  let cs := characters s
  if start ≤ cs.length then some ((cs.drop start).take count).flatten else none

end TildeText.Bytes
