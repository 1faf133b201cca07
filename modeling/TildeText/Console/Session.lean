import TildeText.Console.History
import TildeText.Processor

namespace TildeText.Console

inductive Input
  | text (s : Bytes)
  | broken (p : Problem)

structure Session where
  processor : Processor
  top : Frame := {}
  out : Output := {}
  input : Input := .text []
  terminal : Writer := {}
  slot : Nat := 0
  readsInput : Bool := true
  home : Bytes := Path.dot
  editor : LineEditor := .plain

inductive Progress
  | next (s : Session)
  | stop (s : Session)
  | failed (failure : Failure) (s : Session)
  | exhausted

namespace Session

def start (system : FileSystem) (input : Input) (terminal : Writer := {}) :
    Except Problem Session :=
  (Processor.ofParts system []).map fun processor => { processor, input, terminal }

def system (s : Session) : FileSystem := s.processor.state.storage.system

def setSystem (s : Session) (system : FileSystem) : Session :=
  { s with processor := s.processor.setStorage { s.processor.state.storage with system } }

def resume (s : Session) (m : Machine) : Session :=
  { s with processor := s.processor.setState m.state, top := m.scope.frame }

def eval (s : Session) (src : Source) : Progress :=
  match s.processor.eval s.top src s.out with
  | .done _ m => .next { s.resume m with out := m.out }
  | .failed e m => .failed e { s.resume m with out := m.out }
  | .exhausted => .exhausted

def evalInput (s : Session) (name : Bytes) : Progress :=
  match s.input with
  | .text bytes => { s with input := .text [] }.eval ⟨name, bytes⟩
  | .broken p => .failed (.fault { kind := .readFailed, evidence := name, cause := some p }) s

def say (s : Session) (text : Bytes) : Session :=
  { s with terminal := (s.terminal.write [text]).2 }

def complain (s : Session) (text : Bytes) : Session :=
  { s with
    processor := s.processor.setDiagnostics (s.processor.state.diagnostics.write [text]).2 }

def said (s : Session) : Bytes := s.terminal.written.toBytes

def complained (s : Session) : Bytes := s.processor.state.diagnostics.written.toBytes

end Session

end TildeText.Console
