import TildeText.Bytes

namespace TildeText.Bytes

def numberLimit : Int64 := 9223372036854775807

def digitWord (b : UInt8) : Int64 := Int64.ofNat (digitValue b)

def pushDigit (n : Int64) (b : UInt8) : Option Int64 :=
  if n > (numberLimit - digitWord b) / 10 then none else some (n * 10 + digitWord b)

def magnitude? (digits : Bytes) : Option Int64 :=
  if digits.isEmpty then none else digits.foldlM pushDigit 0

def splitSign : Bytes → Bool × Bytes
  | [] => (false, [])
  | b :: rest => if b == 0x2d then (true, rest) else (false, b :: rest)

def number? (s : Bytes) : Option Int64 :=
  let (negative, body) := splitSign (s.dropWhile isBlank)
  if (body.dropWhile isDigit).all isBlank then
    (magnitude? (body.takeWhile isDigit)).map fun n => if negative then -n else n
  else
    none

def decimalNat (n : Nat) : Bytes := (Nat.toDigits 10 n).map Char.toUInt8

def decimal (n : Int) : Bytes :=
  if n < 0 then 0x2d :: decimalNat n.natAbs else decimalNat n.natAbs

end TildeText.Bytes
