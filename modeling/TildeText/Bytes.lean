namespace TildeText

abbrev Bytes := List UInt8

def utf8 (s : String) : Bytes := s.toUTF8.data.toList

namespace Bytes

def isBlank (b : UInt8) : Bool := b ≤ 0x20

def isDigit (b : UInt8) : Bool := 0x30 ≤ b && b ≤ 0x39

def allDigits (s : Bytes) : Bool := !s.isEmpty && s.all isDigit

def digitValue (b : UInt8) : Nat := b.toNat - 0x30

def digitsValue (s : Bytes) : Nat := s.foldl (fun n b => n * 10 + digitValue b) 0

def join (separator : Bytes) (texts : List Bytes) : Bytes := List.intercalate separator texts

theorem join_cons (separator s : Bytes) (rest : List Bytes) :
    join separator (s :: rest) = s ++ rest.flatMap (separator ++ ·) := by
  induction rest generalizing s with
  | nil => simp [join, List.intercalate]
  | cons s' rest ih =>
    rw [List.flatMap_cons, List.append_assoc, ← ih s']
    simp [join, List.intercalate]

def pieceBefore (separator b : UInt8) : List Bytes → List Bytes
  | [] => if b = separator then [[], []] else [[b]]
  | piece :: pieces => if b = separator then [] :: piece :: pieces else (b :: piece) :: pieces

def pieces (separator : UInt8) (s : Bytes) : List Bytes := s.foldr (pieceBefore separator) [[]]

end Bytes

end TildeText
