import TildeText.Builtin.Request
import TildeText.Bytes.Order

namespace TildeText.Builtin

open Program

/-- Tries the cases in order. After each case comes what it gives; a last argument by itself is what
no case gives. -/
def tryCases (holds : Bytes → Bool) : List Nat → Program Unit
  | [] => return ()
  | [other] => writeArg other
  | case :: result :: rest => do
    if holds (← arg case) then writeArg result else tryCases holds rest

def compare (holds : Bytes → Bytes → Bool) : Builtin := do
  if (← argCount) < 4 then
    .fail .missingParameter [] none
  else
    let v ← arg 1
    tryCases (holds v) (← argsFrom 2)
    return .finished

def eq : Builtin := compare fun a b => a == b

def ne : Builtin := compare fun a b => a != b

def lt : Builtin := compare fun a b => Bytes.less a b

def le : Builtin := compare fun a b => !Bytes.less b a

def gt : Builtin := compare fun a b => Bytes.less b a

def ge : Builtin := compare fun a b => !Bytes.less a b

def lastFull (last : Bytes) : List Nat → Program Bytes
  | [] => return last
  | n :: rest => do
    let v ← arg n
    if v.isEmpty then return [] else lastFull v rest

def and : Builtin := do
  write (← lastFull [] (← argsFrom 1))
  return .finished

def firstFull : List Nat → Program Bytes
  | [] => return []
  | n :: rest => do
    let v ← arg n
    if v.isEmpty then firstFull rest else return v

def or : Builtin := do
  write (← firstFull (← argsFrom 1))
  return .finished

def isNumber : Builtin := do
  writeArg (if (Bytes.number? (← arg 1)).isSome then 2 else 3)
  return .finished

def isDefined : Builtin := do
  let name ← arg 1
  let known := (← isBuiltin name) || (← lookup name).isSome
  writeArg (if known then 2 else 3)
  return .finished

end TildeText.Builtin
