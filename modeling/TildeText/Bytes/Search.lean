import TildeText.Bytes

namespace TildeText.Bytes

def indexFrom (pattern : Bytes) (i : Nat) : Bytes → Option Nat
  | [] => none
  | b :: rest =>
    if pattern.isPrefixOf (b :: rest) then some i else indexFrom pattern (i + 1) rest

def lastIndexFrom (pattern : Bytes) (i : Nat) (best : Option Nat) : Bytes → Option Nat
  | [] => best
  | b :: rest =>
    lastIndexFrom pattern (i + 1) (if pattern.isPrefixOf (b :: rest) then some i else best) rest

def index? (s pattern : Bytes) : Option Nat :=
  if pattern.isEmpty then none else indexFrom pattern 0 s

def lastIndex? (s pattern : Bytes) : Option Nat :=
  if pattern.isEmpty then none else lastIndexFrom pattern 0 none s

end TildeText.Bytes
