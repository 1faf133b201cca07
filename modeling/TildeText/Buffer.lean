import TildeText.Bytes.Characters
import TildeText.Bytes.Digest
import TildeText.Bytes.Number
import TildeText.Bytes.Order
import TildeText.Bytes.Scalar
import TildeText.Bytes.Search
import TildeText.Bytes.Trim

namespace TildeText

structure Buffer where
  name : Bytes := []
  bytes : Bytes := []
  digest : Option UInt32 := none
  deriving DecidableEq

namespace Buffer

def empty : Buffer := {}

def ofBytes (s : Bytes) : Buffer := { bytes := s }

def named (name s : Bytes) : Buffer := { name, bytes := s }

def setName (t : Buffer) (name : Bytes) : Buffer := { t with name }

def change (t : Buffer) (s : Bytes) : Buffer := { t with bytes := s, digest := none }

def size (t : Buffer) : Nat := t.bytes.length

def at? (t : Buffer) (i : Int) : Option UInt8 := if i < 0 then none else t.bytes[i.toNat]?

def append (t : Buffer) (s : Bytes) : Buffer :=
  if s.isEmpty then t else t.change (t.bytes ++ s)

def appendRepeat (t : Buffer) (b : UInt8) (count : Int) : Buffer :=
  t.append (List.replicate count.toNat b)

def appendDecimal (t : Buffer) (n : Int64) : Buffer := t.append (Bytes.decimal n.toInt)

def appendScalar (t : Buffer) (code : Int) : Buffer := t.append (Bytes.encode code)

def appendTrimmed (t : Buffer) (s : Bytes) : Buffer := t.append (Bytes.trim s)

/-- Cuts the bytes from index `i` on into a buffer of their own. An index outside the buffer cuts
off nothing. -/
def cutAt (t : Buffer) (i : Int) : Buffer × Buffer :=
  if 0 ≤ i ∧ i < t.size then (t.change (t.bytes.take i.toNat), ofBytes (t.bytes.drop i.toNat))
  else (t, empty)

def truncate (t : Buffer) (n : Int) : Buffer :=
  if n.toNat < t.size then t.change (t.bytes.take n.toNat) else t

def clear (t : Buffer) : Buffer := t.truncate 0

def wipe (t : Buffer) : Buffer := t.change []

def slice (t : Buffer) (start stop : Int) : Buffer :=
  let stop := min stop t.size
  if max start 0 < stop then
    t.change ((t.bytes.take stop.toNat).drop start.toNat)
  else
    t.clear

def clone (t : Buffer) : Buffer := named t.name t.bytes

def hash (t : Buffer) : UInt32 := t.digest.getD (Bytes.digest t.bytes)

def hashed (t : Buffer) : Buffer := { t with digest := some t.hash }

def substring? (t : Buffer) (start count : Int) : Option Buffer :=
  (Bytes.substring? t.bytes start.toNat count.toNat).map ofBytes

end Buffer

end TildeText
