import TildeText.Program

namespace TildeText.Program

def argCount : Program Nat := .ask .argCount .done

def raw (n : Nat) : Program (Option Bytes) := .ask (.raw n) .done

def argument (n : Nat) : Program (Option Bytes) := .ask (.argument n) .done

def assign (n : Int) (value : Bytes) : Program Unit := .ask (.assign n value) .done

def forget (n : Nat) : Program Unit := .ask (.forget n) .done

def listing : Program Bytes := .ask .listing .done

def write (s : Bytes) : Program Unit := .ask (.write s) .done

def evalHere (src : Source) : Program Unit := .ask (.evalHere src) .done

def evalUnder (label : Bytes) (src : Source) : Program Unit := .ask (.evalUnder label src) .done

def isBuiltin (name : Bytes) : Program Bool := .ask (.isBuiltin name) .done

def lookup (name : Bytes) : Program (Option Bytes) := .ask (.lookup name) .done

def install (name value : Bytes) : Program Unit := .ask (.install name value) .done

def delete (name : Bytes) : Program Unit := .ask (.delete name) .done

def handle (name : Bytes) : Program (Option Handle) := .ask (.handle name) .done

def obtain (name : Bytes) : Program Handle := .ask (.obtain name) .done

def value (h : Handle) : Program Bytes := .ask (.value h) .done

def stored (h : Handle) : Program Bytes := .ask (.stored h) .done

def setValue (h : Handle) (value : Bytes) : Program Unit := .ask (.setValue h value) .done

def load (name : Bytes) : Program (Except Problem Bytes) := .ask (.load name) .done

def store (name content : Bytes) : Program (Except Problem Unit) := .ask (.store name content) .done

def print (s : Bytes) : Program Unit := .ask (.print s) .done

def dump : Program Unit := .ask .dump .done

def serial : Program Int64 := .ask .serial .done

def tick : Program Nat := .ask .tick .done

def arg (n : Nat) : Program Bytes := do
  return (← argument n).getD []

def argsFrom (start : Nat) : Program (List Nat) := do
  return List.range' start ((← argCount) - start)

def nameArg (n : Nat) : Program Bytes := do
  let name ← arg n
  if name.isEmpty then .fail .missingName [] none else return name

def numberArg (n : Nat) : Program Int64 := do
  let v ← arg n
  match Bytes.number? v with
  | some k => return k
  | none => .fail .notANumber v none

def writeArg (n : Nat) : Program Unit := do
  write (← arg n)

end TildeText.Program
