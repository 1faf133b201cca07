import TildeText.Builtin.Request

namespace TildeText.Builtin

open Program

def reduce (op : Int64 → Int64 → Option Int64) (acc : Int64) : List Nat → Program (Option Int64)
  | [] => return some acc
  | n :: rest => do
    match Bytes.number? (← arg n) with
    | none => return none
    | some k =>
      match op acc k with
      | none => return none
      | some acc => reduce op acc rest

def writeNumber : Option Int64 → Program Unit
  | some n => write (Bytes.decimal n.toInt)
  | none => return ()

def reduceAll (op : Int64 → Int64 → Option Int64) (start : Int64) : Builtin := do
  writeNumber (← reduce op start (← argsFrom 1))
  return .finished

def reduceFirst (op : Int64 → Int64 → Option Int64) : Builtin := do
  match ← argsFrom 1 with
  | [] => return .finished
  | n :: rest =>
    match Bytes.number? (← arg n) with
    | none => return .finished
    | some start =>
      writeNumber (← reduce op start rest)
      return .finished

def divide? (a b : Int64) : Option Int64 := if b = 0 then none else some (a / b)

def remainder? (a b : Int64) : Option Int64 := if b = 0 then none else some (a % b)

def add : Builtin := reduceAll (fun a b => some (a + b)) 0

def mult : Builtin := reduceAll (fun a b => some (a * b)) 1

def sub : Builtin := reduceFirst fun a b => some (a - b)

def div : Builtin := reduceFirst divide?

def mod : Builtin := reduceFirst remainder?

end TildeText.Builtin
