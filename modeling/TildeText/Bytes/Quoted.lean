import TildeText.Bytes.Printable
import TildeText.Bytes.Scalar

namespace TildeText.Bytes

def hexDigit (n : Nat) : UInt8 := (Nat.digitChar (n % 16)).toUInt8

def hex (n : Nat) : Nat → Bytes
  | 0 => []
  | width + 1 => hex (n / 16) width ++ [hexDigit n]

def controlLetter? (code : Nat) : Option Bytes :=
  [(0x07, utf8 "a"), (0x08, utf8 "b"), (0x09, utf8 "t"), (0x0a, utf8 "n"), (0x0b, utf8 "v"),
    (0x0c, utf8 "f"), (0x0d, utf8 "r")].lookup code

def quoteScalar (code : Nat) : Bytes :=
  if code == 0x22 || code == 0x5c then 0x5c :: encodeNat code
  else if isPrintable code then encodeNat code
  else match controlLetter? code with
    | some letter => 0x5c :: letter
    | none =>
      if code < 0x80 then utf8 "\\x" ++ hex code 2
      else if code < 0x10000 then utf8 "\\u" ++ hex code 4
      else utf8 "\\U" ++ hex code 8

def quoteDecoded : Decoded → Bytes
  | .scalar code => quoteScalar code
  | .stray b => utf8 "\\x" ++ hex b.toNat 2

def quote (s : Bytes) : Bytes := utf8 "\"" ++ (decoded s).flatMap quoteDecoded ++ utf8 "\""

end TildeText.Bytes
