import TildeText.Processor
import TildeText.Proofs.Sequence

namespace TildeText

structure Execution where
  name : Bytes
  before : Machine
  outcome : Outcome Verdict

def Outcome.thenLog : Outcome α → (α → Machine → List Execution) → List Execution
  | .done a m, f => f a m
  | _, _ => []

section Log

-- what evaluating a text inside runs
variable (inner : Source → Machine → List Execution)

def Machine.argumentLog (m : Machine) (n : Nat) : List Execution :=
  match m.scope.frame.slots[n]? with
  | some { text := some t, value := none } => inner { bytes := t } m.aside
  | _ => []

def Request.log (m : Machine) : Request → List Execution
  | .argument n => m.argumentLog inner n
  | .evalHere src => inner src m
  | .evalUnder label src => inner src (m.push (.under label))
  | _ => []

def Program.log (ctx : Context) : Program α → Machine → List Execution
  | .ask r next, m => r.log inner m ++ (r.perform ctx m).thenLog fun a m => (next a).log ctx m
  | _, _ => []

def Builtin.log (ctx : Context) (name : Bytes) (b : Builtin) : Nat → Machine → List Execution
  | 0, _ => []
  | n + 1, m =>
    ⟨name, m, Program.run ctx b m⟩ :: Program.log inner ctx b m ++
      (Program.run ctx b m).thenLog fun verdict m =>
        if verdict = .again then Builtin.log ctx name b n m else []

namespace Invocation

variable (registry : Registry) (fuel : Nat) (ev : Source → Machine → Outcome Unit)

def bodyLog (name : Bytes) (m : Machine) : List Execution :=
  match m.state.dictionary.find m.state.storage.system name with
  | .ok (e, d) => inner ⟨e.name, e.value⟩ (m.setDictionary d)
  | .error _ => []

def byNameLog (m : Machine) : List Execution :=
  m.argumentLog inner 0 ++ (m.argument ev 0).thenLog fun name m =>
    match registry.lookup (name.getD []) with
    | some b => Builtin.log inner (registry.context ev) (name.getD []) b fuel m
    | none => bodyLog inner (name.getD []) m

def carryOutLog (src : Source) (c : Call) (m : Machine) : List Execution :=
  match c.index? with
  | some n =>
    if c.args.length < 2 then m.argumentLog inner n
    else (m.push (c.frame src)).argumentLog inner 1
  | none => byNameLog inner registry fuel ev (m.push (c.frame src))

end Invocation

end Log

def Segment.logAll (carryOut : Call → Machine → Outcome Unit)
    (log : Call → Machine → List Execution) : List Segment → Machine → List Execution
  | [], _ => []
  | .literal t :: rest, m => logAll carryOut log rest (m.write t.spell)
  | .call c :: rest, m =>
    log c m ++ (carryOut c m).thenLog fun _ m => logAll carryOut log rest m

/-- The builtins that are run when a source is evaluated. -/
def evalLog (registry : Registry) : Nat → Source → Machine → List Execution
  | 0, _, _ => []
  | n + 1, src, m =>
    Segment.logAll (Invocation.carryOut registry n (eval registry n) src)
      (Invocation.carryOutLog (evalLog registry n) registry n (eval registry n) src)
      src.bytes.layout.segments m

namespace Processor

/-- What a processor can be called upon to do. -/
inductive Task
  | eval (f : Frame) (src : Source) (out : Output)
  | expand (s : Bytes) (args : List Bytes)

namespace Task

def perform (p : Processor) : Task → Outcome Unit
  | .eval f src out => p.eval f src out
  | .expand s args => p.expand s args

def log (p : Processor) : Task → List Execution
  | .eval f src out => evalLog p.registry fuel src { state := p.state, scope := ⟨f, []⟩, out }
  | .expand s args =>
    evalLog p.registry fuel ⟨utf8 "[expand]", s⟩
      { state := p.state, scope := ⟨Frame.ofValues (utf8 "tilton" :: args), []⟩ }

end Task

/-- The builtins that are run when a processor is called upon time after time, each time in the
state that the time before it left, whether it failed or not. -/
def log (p : Processor) : List Task → List Execution
  | [] => []
  | t :: rest =>
    t.log p ++
      match t.perform p with
      | .done _ m | .failed _ m => (p.setState m.state).log rest
      | .exhausted => []

end Processor

end TildeText
