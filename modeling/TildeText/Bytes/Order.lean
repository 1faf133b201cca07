import TildeText.Bytes

namespace TildeText.Bytes

def lexLess : Bytes → Bytes → Bool
  | _, [] => false
  | [], _ :: _ => true
  | a :: s, b :: t => if a = b then lexLess s t else a < b

def stripZeros (s : Bytes) : Bytes := s.dropWhile (· == 0x30)

/-- Without leading zeros the shorter number is the smaller, and dictionary order decides between
numbers of one length. -/
def numericLess (s t : Bytes) : Bool :=
  let s := stripZeros s
  let t := stripZeros t
  if s.length = t.length then lexLess s t else s.length < t.length

def less (s t : Bytes) : Bool :=
  if allDigits s && allDigits t then numericLess s t else lexLess s t

end TildeText.Bytes
