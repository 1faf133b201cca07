import TildeText.Builtin.Standard

/-!
Processors. A processor is a registry of builtins and a state that lasts from one evaluation to the
next; it starts with the macros that write the characters of the language itself.
-/

namespace TildeText

structure Processor where
  registry : Registry := Registry.standard
  state : State := {}

/-- How a processor can be set up. A part that was not made cannot be used. -/
inductive Processor.Part
  | diagnostics (w : Writer)
  | files (f : Option Files)
  | dictionary (d : Option Dictionary)
  | builtin (name : Bytes) (b : Option Builtin)

namespace Processor

def version : Bytes := utf8 "1.0"

def predefined : List (Bytes × Bytes) :=
  [(utf8 "gt", utf8 ">"), (utf8 "lt", utf8 "<"), (utf8 "tilde", utf8 "~"), (utf8 "tilton", version)]

def setDictionary (p : Processor) (d : Dictionary) : Processor :=
  { p with state := { p.state with dictionary := d } }

def setStorage (p : Processor) (s : Storage) : Processor :=
  { p with state := { p.state with storage := s } }

def setDiagnostics (p : Processor) (w : Writer) : Processor :=
  { p with state := { p.state with diagnostics := w } }

def install (p : Processor) (name value : Bytes) : Processor :=
  let d := p.state.dictionary
  p.setDictionary { d with table := d.table.install name value }

def add (p : Processor) : Part → Except Problem Processor
  | .diagnostics w => .ok (p.setDiagnostics w)
  | .files (some f) => .ok (p.setStorage { p.state.storage with files := some f })
  | .files none => .error .noFiles
  | .dictionary (some d) => .ok (p.setDictionary d)
  | .dictionary none => .error .noTable
  | .builtin name b =>
    if name.isEmpty then .error .namelessBuiltin
    else match b with
      | some b => .ok { p with registry := (name, b) :: p.registry }
      | none => .error (.emptyBuiltin name)

def ofParts (system : FileSystem) (parts : List Part) : Except Problem Processor := do
  let p : Processor ← parts.foldlM add { state := { storage := { system } } }
  return predefined.foldl (fun p m => p.install m.1 m.2) p

def isBuiltin (p : Processor) (name : Bytes) : Bool := (p.registry.lookup name).isSome

/-- The fuel that an evaluation is given. One that takes more is not told from one that goes on for
ever. -/
def fuel : Nat := 1152921504606846976

def eval (p : Processor) (f : Frame) (src : Source) (out : Output := {}) : Outcome Unit :=
  TildeText.eval p.registry fuel src { state := p.state, scope := ⟨f, []⟩, out }

/-- Evaluates a text in a new frame with the given arguments, of which the one numbered 0 is the
processor's own name. -/
def expand (p : Processor) (s : Bytes) (args : List Bytes := []) : Outcome Unit :=
  p.eval (Frame.ofValues (utf8 "tilton" :: args)) ⟨utf8 "[expand]", s⟩

def setState (p : Processor) (s : State) : Processor := { p with state := s }

end Processor

end TildeText
