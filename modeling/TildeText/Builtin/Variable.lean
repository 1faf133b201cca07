import TildeText.Builtin.Request
import TildeText.Bytes.Search

/-!
Variables and macros, which are entries of one table. An operation on a variable stays with the
entry that it found at its start, whatever its further arguments do to the table.
-/

namespace TildeText.Builtin

open Program

def define : Builtin := do
  let name ← nameArg 1
  install name ((← raw 2).getD [])
  return .finished

def set : Builtin := do
  let name ← nameArg 1
  install name (← arg 2)
  return .finished

def writeVariable (n : Nat) : Program Unit := do
  let name ← arg n
  match ← lookup name with
  | some v => write v
  | none => .fail .undefinedVariable name none

def get : Builtin := do
  (← argsFrom 1).forM writeVariable
  return .finished

def extend (h : Handle) (n : Nat) : Program Unit := do
  let v ← arg n
  setValue h ((← value h) ++ v)

def append : Builtin := do
  let h ← obtain (← nameArg 1)
  (← argsFrom 2).forM (extend h)
  return .finished

def deleteAll : Builtin := do
  (← argsFrom 1).forM fun n => do delete (← arg n)
  return .finished

def variableArg : Program Handle := do
  let name ← nameArg 1
  match ← handle name with
  | some h => return h
  | none => .fail .undefinedVariable name none

structure Match where
  position : Nat
  delimiter : Bytes

def bestMatch (find : Bytes → Bytes → Option Nat) (better : Nat → Nat → Bool) (h : Handle)
    (best : Option Match) : List Nat → Program (Option Match)
  | [] => return best
  | n :: rest => do
    let d ← arg n
    let found := find (← value h) d
    let best := match found, best with
      | some i, none => some ⟨i, d⟩
      | some i, some b => if better i b.position then some ⟨i, d⟩ else some b
      | none, b => b
    bestMatch find better h best rest

def Match.stop (b : Match) : Nat := b.position + b.delimiter.length

def locate (find : Bytes → Bytes → Option Nat) (better : Nat → Nat → Bool) :
    Program (Handle × Option Match) := do
  let h ← variableArg
  return (h, ← bestMatch find better h none (← argsFrom 2))

/-- Takes a part off a variable at the best match, writes it, and leaves another part. Without a
match all is taken. -/
def takeAt (find : Bytes → Bytes → Option Nat) (better : Nat → Nat → Bool)
    (taken : Handle → Match → Program Bytes) (left : Bytes → Match → Bytes) : Builtin := do
  let (h, best) ← locate find better
  match best with
  | some b =>
    write (← taken h b)
    setValue h (left (← value h) b)
    return .matched (some b.delimiter)
  | none =>
    write (← value h)
    setValue h []
    return .matched none

/-- What is stored before a match. If a later delimiter has shortened the variable, that goes on
into what the longer value has left. -/
def before (h : Handle) (b : Match) : Program Bytes := do
  return (← stored h).take b.position

/-- The value from the end of a match on. If a later delimiter has shortened the variable so that
it ends before, there is no such part. -/
def behind (h : Handle) (b : Match) : Program Bytes := do
  let s ← value h
  if short : s.length < b.stop then .crash b.stop s.length short else return s.drop b.stop

def first : Builtin := takeAt Bytes.index? (· < ·) before fun s b => s.drop b.stop

def last : Builtin := takeAt Bytes.lastIndex? (· > ·) behind fun s b => s.take b.position

def gensym : Builtin := do
  write (Bytes.decimal (← serial).toInt)
  return .finished

end TildeText.Builtin
