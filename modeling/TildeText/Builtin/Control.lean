import TildeText.Builtin.Request

namespace TildeText.Builtin

open Program

def literal : Builtin := do
  write ((← raw 1).getD [])
  return .finished

def evalText : Builtin := do
  match ← raw 1 with
  | some s =>
    evalUnder (utf8 "eval") { bytes := s }
    return .finished
  | none => return .finished

/-- One round: unless argument 1 is empty, argument 2 is written and there is another round, for
which both are evaluated afresh. -/
def loop : Builtin := do
  if (← arg 1).isEmpty then return .finished
  else
    forget 1
    forget 2
    writeArg 2
    return .again

def mute : Builtin := do
  (← argsFrom 1).forM fun n => do let _ ← argument n
  return .finished

def null : Builtin := return .finished

def stop : Builtin := do
  .fail .stop (← arg 1) none

def read : Builtin := do
  let name ← arg 1
  match ← load name with
  | .ok content =>
    write content
    return .finished
  | .error e => .fail .readFailed name (some e)

def writeFile : Builtin := do
  let name ← arg 1
  match ← store name (← arg 2) with
  | .ok _ => return .finished
  | .error e => .fail .writeFailed name (some e)

def includeFile : Builtin := do
  let name ← arg 1
  match ← load name with
  | .ok content =>
    evalUnder (utf8 "include") ⟨name, content⟩
    return .finished
  | .error e => .fail .readFailed name (some e)

def dumpTable : Builtin := do
  dump
  return .finished

def printArgs : Builtin := do
  print (← listing)
  return .finished

end TildeText.Builtin
