import TildeText.Bytes.Characters

namespace TildeText.Bytes

def isScalar (code : Int) : Bool :=
  0 ≤ code && code ≤ 0x10ffff && !(0xd800 ≤ code && code ≤ 0xdfff)

def encodeNat (n : Nat) : Bytes :=
  if n < 0x80 then [n.toUInt8]
  else if n < 0x800 then [(0xc0 + n / 0x40).toUInt8, (0x80 + n % 0x40).toUInt8]
  else if n < 0x10000 then
    [(0xe0 + n / 0x1000).toUInt8, (0x80 + n / 0x40 % 0x40).toUInt8, (0x80 + n % 0x40).toUInt8]
  else
    [(0xf0 + n / 0x40000).toUInt8, (0x80 + n / 0x1000 % 0x40).toUInt8,
      (0x80 + n / 0x40 % 0x40).toUInt8, (0x80 + n % 0x40).toUInt8]

def encode (code : Int) : Bytes :=
  if isScalar code then encodeNat code.toNat else encodeNat 0xfffd

inductive Decoded
  | scalar (code : Nat)
  | stray (byte : UInt8)
  deriving DecidableEq

def Decoded.isScalar : Decoded → Bool
  | .scalar _ => true
  | .stray _ => false

def low6 (b : UInt8) : Nat := b.toNat % 0x40

def decodeFront? : Bytes → Option (Nat × Nat)
  | [] => none
  | a :: rest =>
    if a < 0x80 then some (a.toNat, 0)
    else if 0xc2 ≤ a && a ≤ 0xdf then
      match rest with
      | b :: _ => if isContinuation b then some (a.toNat % 0x20 * 0x40 + low6 b, 1) else none
      | _ => none
    else if 0xe0 ≤ a && a ≤ 0xef then
      match rest with
      | b :: c :: _ =>
        let n := a.toNat % 0x10 * 0x1000 + low6 b * 0x40 + low6 c
        if isContinuation b && isContinuation c && 0x800 ≤ n && isScalar n then some (n, 2)
        else none
      | _ => none
    else if 0xf0 ≤ a && a ≤ 0xf4 then
      match rest with
      | b :: c :: d :: _ =>
        let n := a.toNat % 0x08 * 0x40000 + low6 b * 0x1000 + low6 c * 0x40 + low6 d
        if isContinuation b && isContinuation c && isContinuation d && 0x10000 ≤ n && isScalar n then
          some (n, 3)
        else none
      | _ => none
    else none

def decodeAfter : Nat → Bytes → List Decoded
  | _, [] => []
  | skip + 1, _ :: rest => decodeAfter skip rest
  | 0, b :: rest =>
    match decodeFront? (b :: rest) with
    | some (code, more) => .scalar code :: decodeAfter more rest
    | none => .stray b :: decodeAfter 0 rest

def decoded (s : Bytes) : List Decoded := decodeAfter 0 s

def isUtf8 (s : Bytes) : Bool := (decoded s).all Decoded.isScalar

def isWhiteSpace (code : Nat) : Bool :=
  (0x09 ≤ code && code ≤ 0x0d) || code == 0x20 || code == 0x85 || code == 0xa0 || code == 0x1680 ||
  (0x2000 ≤ code && code ≤ 0x200a) || code == 0x2028 || code == 0x2029 || code == 0x202f ||
  code == 0x205f || code == 0x3000

def isWhite (s : Bytes) : Bool :=
  (decoded s).all fun
    | .scalar code => isWhiteSpace code
    | .stray _ => false

end TildeText.Bytes
