import TildeText.Bytes

namespace TildeText.Bytes

/-- A text that is being trimmed: what has been kept of it, with the latest byte first, whether
anything has been, and whether a space is due before the next byte that is kept. -/
structure Trimming where
  kept : Bytes := []
  started : Bool := false
  due : Bool := false

def Trimming.feed (t : Trimming) (b : UInt8) : Trimming :=
  if isBlank b then { t with due := t.started }
  else ⟨b :: (if t.due then 0x20 :: t.kept else t.kept), true, false⟩

def trim (s : Bytes) : Bytes := (s.foldl Trimming.feed {}).kept.reverse

end TildeText.Bytes
