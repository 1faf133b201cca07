import TildeText.Bytes.Number

namespace TildeText

structure Source where
  name : Bytes := []
  bytes : Bytes
  deriving DecidableEq

structure Cursor where
  offset : Nat := 0
  line : Nat := 1
  column : Nat := 0
  deriving DecidableEq

namespace Cursor

def endsLine (b : UInt8) (rest : Bytes) : Bool :=
  b == 0x0a || (b == 0x0d && rest.head? != some 0x0a)

def next (c : Cursor) (b : UInt8) (rest : Bytes) : Cursor :=
  if endsLine b rest then ⟨c.offset + 1, c.line + 1, 0⟩ else ⟨c.offset + 1, c.line, c.column + 1⟩

def advance (c : Cursor) : Nat → Bytes → Cursor
  | 0, _ => c
  | _ + 1, [] => c
  | n + 1, b :: rest => (c.next b rest).advance n rest

def after (s : Bytes) (n : Nat) : Cursor := advance {} n s

end Cursor

structure Origin where
  source : Source
  offset : Nat
  deriving DecidableEq

def Origin.describe (o : Origin) : Bytes :=
  let c := Cursor.after o.source.bytes o.offset
  o.source.name ++ utf8 "(" ++ Bytes.decimalNat c.line ++ utf8 "," ++
    Bytes.decimalNat (c.column + 1) ++ utf8 "/" ++ Bytes.decimalNat (c.offset + 1) ++ utf8 ") "

end TildeText
