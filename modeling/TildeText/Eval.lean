import TildeText.Program

/-!
Evaluation. A text is laid out, its literal parts are copied to the output, and its invocations are
carried out in order. An invocation refers to an argument of the frame it stands in, rebinds one,
runs a builtin, or evaluates the body of a macro in a frame of its own.

Macro text may go on for ever, so evaluation is given fuel: an outcome other than `exhausted` does
not depend on how much there was.
-/

namespace TildeText

abbrev Registry := List (Bytes × Builtin)

def Registry.context (r : Registry) (eval : Source → Machine → Outcome Unit) : Context :=
  ⟨fun name => (r.lookup name).isSome, eval⟩

namespace Invocation

/-- `<~n~>`: the value of argument `n`. -/
def refer (eval : Source → Machine → Outcome Unit) (n : Nat) (m : Machine) : Outcome Unit :=
  match m.argument eval n with
  | .done v m => .done () (m.write (v.getD []))
  | .failed e m => .failed e m
  | .exhausted => .exhausted

/-- `<~n~value~>`: argument `n` gets a new value. The frame of the invocation is the innermost one,
and the argument is one of the frame around it. -/
def rebind (eval : Source → Machine → Outcome Unit) (n : Nat) (m : Machine) : Outcome Unit :=
  match m.argument eval 1 with
  | .done v m =>
    if n ≤ argumentLimit then .done () (m.pop.mapFrame (·.rebind n v))
    else .failed (m.fault .badArgument ((m.scope.frame.raw 0).getD [])) m.pop
  | .failed e m => .failed e m.pop
  | .exhausted => .exhausted

def builtin (ctx : Context) (fuel : Nat) (b : Builtin) (m : Machine) : Outcome Unit :=
  match b.run ctx fuel m with
  | .done none m => .done () m.pop
  | .done (some d) m => .done () (m.pop.mapFrame (·.rebind 0 d))
  | .failed e m => .failed e m.pop
  | .exhausted => .exhausted

def expand (eval : Source → Machine → Outcome Unit) (name : Bytes) (m : Machine) : Outcome Unit :=
  match m.state.dictionary.find m.state.storage.system name with
  | .ok (e, d) =>
    (eval ⟨e.name, e.value⟩ { m with state := { m.state with dictionary := d } }).pop
  | .error e => .failed (m.fault .undefinedMacro name (some e)) m.pop

def byName (registry : Registry) (fuel : Nat) (eval : Source → Machine → Outcome Unit)
    (m : Machine) : Outcome Unit :=
  match m.argument eval 0 with
  | .done name m =>
    let name := name.getD []
    match registry.lookup name with
    | some b => builtin (registry.context eval) fuel b m
    | none => expand eval name m
  | .failed e m => .failed e m.pop
  | .exhausted => .exhausted

def carryOut (registry : Registry) (fuel : Nat) (eval : Source → Machine → Outcome Unit)
    (src : Source) (c : Call) (m : Machine) : Outcome Unit :=
  match c.index? with
  | some n =>
    if c.args.length < 2 then refer eval n m else rebind eval n (m.push (c.frame src))
  | none => byName registry fuel eval (m.push (c.frame src))

end Invocation

def Segment.runAll (carryOut : Call → Machine → Outcome Unit) :
    List Segment → Machine → Outcome Unit
  | [], m => .done () m
  | .literal t :: rest, m => runAll carryOut rest (m.write t.spell)
  | .call c :: rest, m =>
    match carryOut c m with
    | .done _ m => runAll carryOut rest m
    | .failed e m => .failed e m
    | .exhausted => .exhausted

theorem Segment.runAll_append (carryOut : Call → Machine → Outcome Unit) (xs ys : List Segment)
    (m : Machine) :
    runAll carryOut (xs ++ ys) m =
      (runAll carryOut xs m).andThen fun _ m => runAll carryOut ys m := by
  induction xs generalizing m with
  | nil => rfl
  | cons x xs ih =>
    cases x with
    | literal t => exact ih _
    | call c =>
      simp only [List.cons_append, runAll]
      cases carryOut c m with
      | done a m => exact ih m
      | failed e m => rfl
      | exhausted => rfl

def Defect.failure (d : Defect) (src : Source) (m : Machine) : Failure :=
  match d with
  | .shortClose o => (m.push (o.frame src)).fault .shortClose
  | .missingClose o => (m.push (o.frame src)).fault .missingClose
  | .extraClose offset => (m.push { origin := some ⟨src, offset⟩ }).fault .extraClose

def Layout.run (l : Layout) (carryOut : Call → Machine → Outcome Unit) (src : Source)
    (m : Machine) : Outcome Unit :=
  match Segment.runAll carryOut l.segments m with
  | .done _ m =>
    match l.defect with
    | none => .done () m
    | some d => .failed (d.failure src m) m
  | .failed e m => .failed e m
  | .exhausted => .exhausted

def eval (registry : Registry) : Nat → Source → Machine → Outcome Unit
  | 0, _, _ => .exhausted
  | n + 1, src, m =>
    src.bytes.layout.run (Invocation.carryOut registry n (eval registry n) src) src m

end TildeText
