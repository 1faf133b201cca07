import TildeText.Dictionary
import TildeText.Fault
import TildeText.Frame
import TildeText.Output
import TildeText.Storage

namespace TildeText

structure State where
  dictionary : Dictionary := {}
  storage : Storage := {}
  diagnostics : Writer := {}
  serial : Int64 := 1000
  ticks : Nat := 0

structure Machine where
  state : State
  scope : Scope
  out : Output := {}

inductive Outcome (α : Type)
  | done (value : α) (m : Machine)
  | failed (failure : Failure) (m : Machine)
  | exhausted

namespace Machine

def write (m : Machine) (s : Bytes) : Machine := { m with out := m.out.write s }

def push (m : Machine) (f : Frame) : Machine := { m with scope := m.scope.push f }

def pop (m : Machine) : Machine := { m with scope := m.scope.around }

def mapFrame (m : Machine) (f : Frame → Frame) : Machine :=
  { m with scope := { m.scope with frame := f m.scope.frame } }

def setTable (m : Machine) (t : Table) : Machine :=
  { m with state := { m.state with dictionary := { m.state.dictionary with table := t } } }

def setStorage (m : Machine) (s : Storage) : Machine :=
  { m with state := { m.state with storage := s } }

def setDiagnostics (m : Machine) (w : Writer) : Machine :=
  { m with state := { m.state with diagnostics := w } }

def table (m : Machine) : Table := m.state.dictionary.table

def fault (m : Machine) (kind : Kind) (evidence : Bytes := []) (cause : Option Problem := none) :
    Failure :=
  .fault { kind, trace := m.scope.trace, evidence, cause }

end Machine

namespace Outcome

def pop : Outcome α → Outcome α
  | .done a m => .done a m.pop
  | .failed e m => .failed e m.pop
  | .exhausted => .exhausted

def andThen : Outcome α → (α → Machine → Outcome β) → Outcome β
  | .done a m, f => f a m
  | .failed e m, _ => .failed e m
  | .exhausted, _ => .exhausted

end Outcome

/-- The value of an argument of the innermost frame. If only its raw text is known, the text is
evaluated in the scope around, and the value is remembered. -/
def Machine.argument (eval : Source → Machine → Outcome Unit) (m : Machine) (n : Nat) :
    Outcome (Option Bytes) :=
  match m.scope.frame.slots[n]? with
  | none => .done none m
  | some { value := some v, .. } => .done (some v) m
  | some { text := none, value := none } => .done none m
  | some { text := some t, value := none } =>
    match eval { bytes := t } { m with scope := m.scope.around, out := {} } with
    | .done _ m' =>
      let v := m'.out.toBytes
      .done (some v)
        { m' with scope := m.scope.within (m.scope.frame.remember n v) m'.scope, out := m.out }
    | .failed e m' =>
      .failed e { m' with scope := m.scope.within m.scope.frame m'.scope, out := m.out }
    | .exhausted => .exhausted

end TildeText
