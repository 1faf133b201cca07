import TildeText.Bytes

namespace TildeText.Bytes

def entity? (b : UInt8) : Option Bytes :=
  if b == 0x26 then some (utf8 "&amp;")
  else if b == 0x3c then some (utf8 "&lt;")
  else if b == 0x3e then some (utf8 "&gt;")
  else if b == 0x22 then some (utf8 "&quot;")
  else if b == 0x27 then some (utf8 "&#039;")
  else if b == 0x5c then some (utf8 "&#092;")
  else if b == 0x7e then some (utf8 "&#126;")
  else none

def entityByte (b : UInt8) : Bytes := (entity? b).getD [b]

def entityify (s : Bytes) : Bytes := s.flatMap entityByte

def isSlashed (b : UInt8) : Bool := b == 0x5c || b == 0x27 || b == 0x22

def slashByte (b : UInt8) : Bytes := if isSlashed b then [0x5c, b] else [b]

def slashify (s : Bytes) : Bytes := s.flatMap slashByte

end TildeText.Bytes
