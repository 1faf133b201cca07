import TildeText.Builtin.Request
import TildeText.Bytes.Characters
import TildeText.Bytes.Escape
import TildeText.Bytes.Trim

namespace TildeText.Builtin

open Program

def length : Builtin := do
  write (Bytes.decimalNat (Bytes.characterCount (← arg 1)))
  return .finished

def widest : Int64 := 2147483647

def narrowest : Int64 := -2147483648

def clamp (n : Int64) : Int64 :=
  if n > widest then widest else if n < narrowest then narrowest else n

/-- The part of a text from a start, which counts back from the end if it is negative. A start
before the text or after it gives nothing. -/
def part (s : Bytes) (start count : Int64) : Bytes :=
  let start := if start < 0 then start + Int64.ofNat (Bytes.characterCount s) else start
  if start < 0 ∨ count ≤ 0 then []
  else (Bytes.substring? s start.toNatClampNeg count.toNatClampNeg).getD []

def substr : Builtin := do
  let s ← arg 1
  let n ← argCount
  if n < 3 then return .finished
  else
    let start := clamp (← numberArg 2)
    if n < 4 then
      write (part s start widest)
      return .finished
    else
      write (part s start (clamp (← numberArg 3)))
      return .finished

def copies (s : Bytes) (count : Nat) : Bytes :=
  if s.isEmpty then [] else (List.replicate count s).flatten

def rep : Builtin := do
  let s ← arg 1
  let count ← numberArg 2
  write (copies s count.toInt.toNat)
  return .finished

def entityify : Builtin := do
  write (Bytes.entityify (← arg 1))
  return .finished

def slashify : Builtin := do
  write (Bytes.slashify (← arg 1))
  return .finished

def trim : Builtin := do
  (← argsFrom 1).forM fun n => do write (Bytes.trim (← arg n))
  return .finished

def writeCharacter (n : Nat) : Program Unit := do
  let code ← numberArg n
  if 0 ≤ code.toInt ∧ code.toInt ≤ 0x10ffff then write (Bytes.encode code.toInt)
  else .fail .badCharacter (← arg n) none

def unicode : Builtin := do
  (← argsFrom 1).forM writeCharacter
  return .finished

end TildeText.Builtin
