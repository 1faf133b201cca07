import TildeText.Machine

/-!
Programs of builtins. A builtin does not see the machine: it makes requests and goes on with the
answers, so what a builtin can do to the machine is what the requests can do. A program is finite;
one that has to go on asks to be run again from its start.
-/

namespace TildeText

/-- What a builtin can ask for. Arguments are those of its own invocation. -/
inductive Request
  | argCount
  | raw (n : Nat)
  | argument (n : Nat)
  | assign (n : Int) (value : Bytes)
  | forget (n : Nat)
  | listing
  | write (s : Bytes)
  | evalHere (src : Source)
  | evalUnder (label : Bytes) (src : Source)
  | isBuiltin (name : Bytes)
  | lookup (name : Bytes)
  | install (name value : Bytes)
  | delete (name : Bytes)
  | handle (name : Bytes)
  | obtain (name : Bytes)
  | value (h : Handle)
  | stored (h : Handle)
  | setValue (h : Handle) (value : Bytes)
  | load (name : Bytes)
  | store (name content : Bytes)
  | print (s : Bytes)
  | dump
  | serial
  | tick

@[reducible] def Request.Answer : Request → Type
  | .argCount => Nat
  | .raw _ | .argument _ => Option Bytes
  | .listing => Bytes
  | .isBuiltin _ => Bool
  | .lookup _ => Option Bytes
  | .handle _ => Option Handle
  | .obtain _ => Handle
  | .value _ | .stored _ => Bytes
  | .load _ => Except Problem Bytes
  | .store _ _ => Except Problem Unit
  | .serial => Int64
  | .tick => Nat
  | _ => Unit

inductive Program (α : Type)
  | done (a : α)
  | fail (kind : Kind) (evidence : Bytes) (cause : Option Problem)
  | abort (p : Problem)
  | crash (start size : Nat) (short : size < start)
  | ask (r : Request) (next : r.Answer → Program α)

/-- How a builtin ends: with nothing more to do, with a delimiter to be handed to the frame it was
invoked in, or to be run again. -/
inductive Verdict
  | finished
  | matched (delimiter : Option Bytes)
  | again
  deriving DecidableEq

abbrev Builtin := Program Verdict

namespace Program

def bind : Program α → (α → Program β) → Program β
  | .done a, f => f a
  | .fail kind evidence cause, _ => .fail kind evidence cause
  | .abort p, _ => .abort p
  | .crash start size short, _ => .crash start size short
  | .ask r next, f => .ask r fun a => (next a).bind f

instance : Monad Program where
  pure := .done
  bind := bind

theorem bind_assoc (p : Program α) (f : α → Program β) (g : β → Program γ) :
    (p.bind f).bind g = p.bind fun a => (f a).bind g := by
  induction p with
  | done a => rfl
  | fail kind evidence cause => rfl
  | abort p => rfl
  | crash start size short => rfl
  | ask r next ih =>
    simp only [bind]
    congr 1
    funext a
    exact ih a

end Program

/-- What a program runs with: the names of the builtins, and evaluation itself. -/
structure Context where
  isBuiltin : Bytes → Bool
  eval : Source → Machine → Outcome Unit

/-- The name under which, and the arguments with which, a text is evaluated as if it were the body
of a macro: arguments one to seven are the invocation's arguments two to eight. -/
def Frame.under (label : Bytes) : Frame :=
  .ofTexts (label :: [utf8 "<~2~>", utf8 "<~3~>", utf8 "<~4~>", utf8 "<~5~>", utf8 "<~6~>",
    utf8 "<~7~>", utf8 "<~8~>"])

def Machine.report (m : Machine) (records : List Bytes) : Outcome Unit :=
  match m.state.diagnostics.write records with
  | (.ok _, w) => .done () (m.setDiagnostics w)
  | (.error p, w) => .failed (.problem p) (m.setDiagnostics w)

def Request.perform (ctx : Context) (m : Machine) : (r : Request) → Outcome r.Answer
  | .argCount => .done m.scope.frame.size m
  | .raw n => .done (m.scope.frame.raw n) m
  | .argument n => m.argument ctx.eval n
  | .assign n v => .done () (m.mapFrame (·.assign n v))
  | .forget n => .done () (m.mapFrame (·.forget n))
  | .listing => .done m.scope.frame.listing m
  | .write s => .done () (m.write s)
  | .evalHere src => ctx.eval src m
  | .evalUnder label src => (ctx.eval src (m.push (.under label))).pop
  | .isBuiltin name => .done (ctx.isBuiltin name) m
  | .lookup name => .done ((m.table.find? name).map Entry.value) m
  | .install name v => .done () (m.setTable (m.table.install name v))
  | .delete name => .done () (m.setTable (m.table.delete name).2)
  | .handle name => .done ((m.table.find? name).map Entry.handle) m
  | .obtain name =>
    let (h, t) := m.table.obtain name
    .done h (m.setTable t)
  | .value h => .done (m.table.value h) m
  | .stored h => .done (m.table.stored h) m
  | .setValue h v => .done () (m.setTable (m.table.setValue h v))
  | .load name =>
    let (content, s) := m.state.storage.read name
    .done content (m.setStorage s)
  | .store name content =>
    let (result, s) := m.state.storage.write name content
    .done result (m.setStorage s)
  | .print s => m.report [s]
  | .dump => m.report (m.table.entries.map Entry.line)
  | .serial =>
    let n := m.state.serial + 1
    .done n { m with state := { m.state with serial := n } }
  | .tick =>
    let n := m.state.ticks + 1
    .done n { m with state := { m.state with ticks := n } }

def Program.run (ctx : Context) : Program α → Machine → Outcome α
  | .done a, m => .done a m
  | .fail kind evidence cause, m => .failed (m.fault kind evidence cause) m
  | .abort p, m => .failed (.problem p) m
  | .crash start size short, m => .failed (.crash start size short) m
  | .ask r next, m =>
    match r.perform ctx m with
    | .done a m => (next a).run ctx m
    | .failed e m => .failed e m
    | .exhausted => .exhausted

theorem Program.run_ask (ctx : Context) (r : Request) (next : r.Answer → Program α) (m : Machine) :
    (Program.ask r next).run ctx m = (r.perform ctx m).andThen fun a m => (next a).run ctx m := by
  rw [Program.run]
  cases r.perform ctx m <;> rfl

theorem Program.run_bind (ctx : Context) (p : Program α) (f : α → Program β) (m : Machine) :
    (p.bind f).run ctx m = (p.run ctx m).andThen fun a m => (f a).run ctx m := by
  induction p generalizing m with
  | done a => rfl
  | fail kind evidence cause => rfl
  | abort p => rfl
  | crash start size short => rfl
  | ask r next ih =>
    rw [Program.bind, Program.run_ask, Program.run_ask]
    cases r.perform ctx m with
    | done a m => exact ih a m
    | failed e m => rfl
    | exhausted => rfl

def Builtin.run (ctx : Context) (b : Builtin) : Nat → Machine → Outcome (Option (Option Bytes))
  | 0, _ => .exhausted
  | n + 1, m =>
    match Program.run ctx b m with
    | .done .finished m => .done none m
    | .done (.matched d) m => .done (some d) m
    | .done .again m => Builtin.run ctx b n m
    | .failed e m => .failed e m
    | .exhausted => .exhausted

end TildeText
