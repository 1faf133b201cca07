import TildeText.Builtin.Standard

namespace TildeText

/-- The kinds of fault that the structure of a text can have. -/
def Kind.isBracket : Kind → Bool
  | .shortClose | .extraClose | .missingClose => true
  | _ => false

def Request.givesText : Request → Bool
  | .evalHere _ | .evalUnder _ _ => true
  | _ => false

def Request.isBasic : Request → Bool
  | .evalHere _ | .evalUnder _ _ | .install _ _ | .handle _ | .obtain _ | .value _ | .stored _
  | .setValue _ _ => false
  | _ => true

def Request.isCommon : Request → Bool
  | .serial => false
  | r => r.isBasic

theorem Request.isBasic_of_isCommon {r : Request} (h : r.isCommon = true) : r.isBasic = true := by
  cases r with
  | serial => cases h
  | _ => exact h

theorem Request.givesText_of_isBasic {r : Request} (h : r.isBasic = true) :
    r.givesText = false := by
  cases r with
  | evalHere src => cases h
  | evalUnder label src => cases h
  | _ => rfl

theorem Request.givesText_of_isCommon {r : Request} (h : r.isCommon = true) :
    r.givesText = false :=
  givesText_of_isBasic (isBasic_of_isCommon h)

namespace Program

def FailsOnly (P : Kind → Prop) : Program α → Prop
  | .done _ => True
  | .fail kind _ _ => P kind
  | .abort _ => True
  | .crash _ _ _ => True
  | .ask _ next => ∀ a, (next a).FailsOnly P

/-- The program makes requests of one sort only, raises faults of one sort only, and ends in other
failures of its own only as far as it may. -/
def Within (Q : Request → Prop) (P : Kind → Prop) (p : Program α)
    (E : Failure → Prop := fun _ => True) : Prop :=
  match p with
  | .done _ => True
  | .fail kind _ _ => P kind
  | .abort p => E (.problem p)
  | .crash start size short => E (.crash start size short)
  | .ask r next => Q r ∧ ∀ a, (next a).Within Q P E

def AsksOnly (Q : Request → Prop) (p : Program α) : Prop := p.Within Q fun _ => True

abbrev OnArguments (P : Kind → Prop) (p : Program α) (E : Failure → Prop := fun _ => True) : Prop :=
  p.Within (·.givesText = false) P E

namespace Within

variable {P : Kind → Prop} {Q : Request → Prop} {E : Failure → Prop}

theorem failsOnly {p : Program α} (hp : p.Within Q P E) : p.FailsOnly P := by
  induction p with
  | done a => trivial
  | fail kind evidence cause => exact hp
  | abort p => trivial
  | crash start size short => trivial
  | ask r next ih => exact fun a => ih a (hp.2 a)

theorem imp {Q' : Request → Prop} {P' : Kind → Prop} {E' : Failure → Prop} {p : Program α}
    (hp : p.Within Q P E) (hQ : ∀ r, Q r → Q' r) (hP : ∀ k, P k → P' k) (hE : ∀ e, E e → E' e) :
    p.Within Q' P' E' := by
  induction p with
  | done a => trivial
  | fail kind evidence cause => exact hP kind hp
  | abort p => exact hE _ hp
  | crash start size short => exact hE _ hp
  | ask r next ih => exact ⟨hQ r hp.1, fun a => ih a (hp.2 a)⟩

theorem bind {p : Program α} {f : α → Program β} (hp : p.Within Q P E)
    (hf : ∀ a, (f a).Within Q P E) : (p >>= f).Within Q P E := by
  induction p with
  | done a => exact hf a
  | fail kind evidence cause => exact hp
  | abort p => exact hp
  | crash start size short => exact hp
  | ask r next ih => exact ⟨hp.1, fun a => ih a (hp.2 a)⟩

theorem pure (a : α) : (Pure.pure a : Program α).Within Q P E := trivial

theorem ask {r : Request} (h : Q r) : (Program.ask r .done).Within Q P E := ⟨h, fun _ => trivial⟩

theorem ite {c : Prop} [Decidable c] {p q : Program α} (hp : p.Within Q P E) (hq : q.Within Q P E) :
    (if c then p else q).Within Q P E := by
  split
  · exact hp
  · exact hq

theorem forM {xs : List α} {f : α → Program Unit} (hf : ∀ a, (f a).Within Q P E) :
    (xs.forM f).Within Q P E := by
  induction xs with
  | nil => exact pure ()
  | cons x xs ih => exact bind (hf x) fun _ => ih

section

variable (hQ : ∀ r, r.isCommon = true → Q r)

include hQ

theorem arg (n : Nat) : (Program.arg n).Within Q P E := bind (ask (hQ _ rfl)) fun _ => pure _

theorem writeArg (n : Nat) : (Program.writeArg n).Within Q P E :=
  bind (arg hQ n) fun _ => ask (hQ _ rfl)

theorem argsFrom (n : Nat) : (Program.argsFrom n).Within Q P E :=
  bind (ask (hQ _ rfl)) fun _ => pure _

theorem nameArg (hP : P .missingName) (n : Nat) : (Program.nameArg n).Within Q P E :=
  bind (arg hQ n) fun _ => ite hP (pure _)

theorem numberArg (hP : P .notANumber) (n : Nat) : (Program.numberArg n).Within Q P E := by
  refine bind (arg hQ n) fun v => ?_
  cases Bytes.number? v with
  | none => exact hP
  | some k => exact pure k

end

end Within

def EndsWithin (Q : Request → Prop) (P : Kind → Prop) (D : α → Prop) (p : Program α)
    (E : Failure → Prop := fun _ => True) : Prop :=
  match p with
  | .done a => D a
  | .fail kind _ _ => P kind
  | .abort p => E (.problem p)
  | .crash start size short => E (.crash start size short)
  | .ask r next => Q r ∧ ∀ a, (next a).EndsWithin Q P D E

namespace EndsWithin

variable {P : Kind → Prop} {Q : Request → Prop} {E : Failure → Prop}

theorem iff_within {p : Program α} : p.EndsWithin Q P (fun _ => True) E ↔ p.Within Q P E := by
  induction p with
  | done a => exact Iff.rfl
  | fail kind evidence cause => exact Iff.rfl
  | abort p => exact Iff.rfl
  | crash start size short => exact Iff.rfl
  | ask r next ih => exact and_congr_right fun _ => forall_congr' ih

theorem imp {Q' : Request → Prop} {P' : Kind → Prop} {E' : Failure → Prop} {D D' : α → Prop}
    {p : Program α} (hp : p.EndsWithin Q P D E) (hQ : ∀ r, Q r → Q' r) (hP : ∀ k, P k → P' k)
    (hE : ∀ e, E e → E' e) (hD : ∀ a, D a → D' a) : p.EndsWithin Q' P' D' E' := by
  induction p with
  | done a => exact hD a hp
  | fail kind evidence cause => exact hP kind hp
  | abort p => exact hE _ hp
  | crash start size short => exact hE _ hp
  | ask r next ih => exact ⟨hQ r hp.1, fun a => ih a (hp.2 a)⟩

theorem within {D : α → Prop} {p : Program α} (hp : p.EndsWithin Q P D E) : p.Within Q P E :=
  iff_within.1 (hp.imp (fun _ => id) (fun _ => id) (fun _ => id) fun _ _ => trivial)

theorem bind {D : β → Prop} {p : Program α} {f : α → Program β} (hp : p.Within Q P E)
    (hf : ∀ a, (f a).EndsWithin Q P D E) : (p >>= f).EndsWithin Q P D E := by
  induction p with
  | done a => exact hf a
  | fail kind evidence cause => exact hp
  | abort p => exact hp
  | crash start size short => exact hp
  | ask r next ih => exact ⟨hp.1, fun a => ih a (hp.2 a)⟩

theorem pure {D : α → Prop} {a : α} (h : D a) : (Pure.pure a : Program α).EndsWithin Q P D E := h

theorem ite {D : α → Prop} {c : Prop} [Decidable c] {p q : Program α} (hp : p.EndsWithin Q P D E)
    (hq : q.EndsWithin Q P D E) : (if c then p else q).EndsWithin Q P D E := by
  split
  · exact hp
  · exact hq

end EndsWithin

end Program

namespace Builtin

open Program

abbrev Ordinary (P : Kind → Prop) (b : Builtin) : Prop :=
  EndsWithin (·.isCommon = true) P (· ≠ .again) b fun _ => False

variable {P : Kind → Prop} {E : Failure → Prop}

theorem finished : Ordinary P (Pure.pure .finished : Program Verdict) := nofun

section

variable {Q : Request → Prop} (hQ : ∀ r, r.isCommon = true → Q r)

include hQ

theorem reduce_within (op : Int64 → Int64 → Option Int64) (acc : Int64) (args : List Nat) :
    (reduce op acc args).Within Q P E := by
  induction args generalizing acc with
  | nil => exact .pure _
  | cons n rest ih =>
    refine .bind (.arg hQ n) fun v => ?_
    cases Bytes.number? v with
    | none => exact .pure _
    | some k =>
      simp only
      cases op acc k with
      | none => exact .pure _
      | some acc => exact ih acc

theorem writeNumber_within (n : Option Int64) : (writeNumber n).Within Q P E := by
  cases n with
  | none => exact .pure ()
  | some n => exact .ask (hQ _ rfl)

theorem tryCases_within (holds : Bytes → Bool) (args : List Nat) :
    (tryCases holds args).Within Q P E := by
  fun_induction tryCases holds args with
  | case1 => exact .pure ()
  | case2 other => exact .writeArg hQ other
  | case3 case result rest ih => exact .bind (.arg hQ case) fun v => .ite (.writeArg hQ result) ih

theorem lastFull_within (last : Bytes) (args : List Nat) : (lastFull last args).Within Q P E := by
  induction args generalizing last with
  | nil => exact .pure _
  | cons n rest ih => exact .bind (.arg hQ n) fun v => .ite (.pure _) (ih v)

theorem firstFull_within (args : List Nat) : (firstFull args).Within Q P E := by
  induction args with
  | nil => exact .pure _
  | cons n rest ih => exact .bind (.arg hQ n) fun v => .ite ih (.pure _)

theorem writeVariable_within (hu : P .undefinedVariable) (n : Nat) :
    (writeVariable n).Within Q P E := by
  refine .bind (.arg hQ n) fun name => .bind (.ask (hQ _ rfl)) fun v => ?_
  cases v with
  | none => exact hu
  | some v => exact .ask (hQ _ rfl)

theorem writeCharacter_within (hn : P .notANumber) (hb : P .badCharacter) (n : Nat) :
    (writeCharacter n).Within Q P E :=
  .bind (.numberArg hQ hn n) fun _ => .ite (.ask (hQ _ rfl)) (.bind (.arg hQ n) fun _ => hb)

theorem bestMatch_within (hv : ∀ h, Q (.value h)) (find : Bytes → Bytes → Option Nat)
    (better : Nat → Nat → Bool) (h : Handle) (best : Option Match) (args : List Nat) :
    (bestMatch find better h best args).Within Q P E := by
  induction args generalizing best with
  | nil => exact .pure _
  | cons n rest ih => exact .bind (.arg hQ n) fun _ => .bind (.ask (hv h)) fun _ => ih _

theorem variableArg_within (hh : ∀ name, Q (.handle name)) (hn : P .missingName)
    (hu : P .undefinedVariable) : variableArg.Within Q P E := by
  refine .bind (.nameArg hQ hn 1) fun name => .bind (.ask (hh name)) fun h => ?_
  cases h with
  | none => exact hu
  | some h => exact .pure h

end

theorem reduceAll_ordinary (op : Int64 → Int64 → Option Int64) (start : Int64) :
    Ordinary P (reduceAll op start) :=
  .bind (.argsFrom (fun _ => id) 1) fun args =>
    .bind (reduce_within (fun _ => id) op start args) fun n =>
      .bind (writeNumber_within (fun _ => id) n) fun _ => finished

theorem reduceFirst_ordinary (op : Int64 → Int64 → Option Int64) : Ordinary P (reduceFirst op) := by
  refine .bind (.argsFrom (fun _ => id) 1) fun args => ?_
  cases args with
  | nil => exact finished
  | cons n rest =>
    refine .bind (.arg (fun _ => id) n) fun v => ?_
    cases Bytes.number? v with
    | none => exact finished
    | some start =>
      exact .bind (reduce_within (fun _ => id) op start rest) fun n =>
        .bind (writeNumber_within (fun _ => id) n) fun _ => finished

theorem compare_ordinary (hP : P .missingParameter) (holds : Bytes → Bytes → Bool) :
    Ordinary P (compare holds) :=
  .bind (.ask rfl) fun _ => .ite hP <| .bind (.arg (fun _ => id) 1) fun v =>
    .bind (.argsFrom (fun _ => id) 2) fun args =>
      .bind (tryCases_within (fun _ => id) (holds v) args) fun _ => finished

theorem read_ordinary (hP : P .readFailed) : Ordinary P read := by
  refine .bind (.arg (fun _ => id) 1) fun name => .bind (.ask rfl) fun content => ?_
  cases content with
  | error e => exact hP
  | ok content => exact .bind (.ask rfl) fun _ => finished

theorem writeFile_ordinary (hP : P .writeFailed) : Ordinary P writeFile := by
  refine .bind (.arg (fun _ => id) 1) fun name => .bind (.arg (fun _ => id) 2) fun content =>
    .bind (.ask rfl) fun result => ?_
  cases result with
  | error e => exact hP
  | ok _ => exact finished

theorem substr_ordinary (hP : P .notANumber) : Ordinary P substr :=
  .bind (.arg (fun _ => id) 1) fun _ => .bind (.ask rfl) fun _ => .ite finished <|
    .bind (.numberArg (fun _ => id) hP 2) fun _ => .ite (.bind (.ask rfl) fun _ => finished) <|
      .bind (.numberArg (fun _ => id) hP 3) fun _ => .bind (.ask rfl) fun _ => finished

theorem evalText_within {Q : Request → Prop} (hr : Q (.raw 1))
    (hu : ∀ src, Q (.evalUnder (utf8 "eval") src)) : evalText.Within Q P E := by
  refine .bind (.ask hr) fun s => ?_
  cases s with
  | none => exact .pure _
  | some s => exact .bind (.ask (hu _)) fun _ => .pure _

theorem includeFile_within {Q : Request → Prop} (hP : P .readFailed) (ha : Q (.argument 1))
    (hl : ∀ name, Q (.load name)) (hu : ∀ src, Q (.evalUnder (utf8 "include") src)) :
    includeFile.Within Q P E := by
  refine .bind (.bind (.ask ha) fun _ => .pure _) fun name => ?_
  refine .bind (.ask (hl name)) fun content => ?_
  cases content with
  | error e => exact hP
  | ok content => exact .bind (.ask (hu _)) fun _ => .pure _

theorem define_within {Q : Request → Prop} (hQ : ∀ r, r.isCommon = true → Q r)
    (hi : ∀ name v, Q (.install name v)) (hP : P .missingName) : define.Within Q P E :=
  .bind (.nameArg hQ hP 1) fun _ => .bind (.ask (hQ _ rfl)) fun _ =>
    .bind (.ask (hi _ _)) fun _ => .pure _

theorem set_within {Q : Request → Prop} (hQ : ∀ r, r.isCommon = true → Q r)
    (hi : ∀ name v, Q (.install name v)) (hP : P .missingName) : set.Within Q P E :=
  .bind (.nameArg hQ hP 1) fun _ => .bind (.arg hQ 2) fun _ =>
    .bind (.ask (hi _ _)) fun _ => .pure _

theorem gensym_within {Q : Request → Prop} (hs : Q .serial) (hw : ∀ s, Q (.write s)) :
    gensym.Within Q P E :=
  .bind (.ask hs) fun _ => .bind (.ask (hw _)) fun _ => .pure _

theorem loop_within {Q : Request → Prop} (hQ : ∀ r, r.isCommon = true → Q r) : loop.Within Q P E :=
  .bind (.arg hQ 1) fun _ => .ite (.pure _) <| .bind (.ask (hQ _ rfl)) fun _ =>
    .bind (.ask (hQ _ rfl)) fun _ => .bind (.writeArg hQ 2) fun _ => .pure _

theorem append_within {Q : Request → Prop} (hQ : ∀ r, r.isCommon = true → Q r)
    (ho : ∀ name, Q (.obtain name)) (hv : ∀ h, Q (.value h)) (hs : ∀ h v, Q (.setValue h v))
    (hP : P .missingName) : append.Within Q P E := by
  have extend (h : Handle) (n : Nat) : (extend h n).Within Q P E :=
    .bind (.arg hQ n) fun _ => .bind (.ask (hv h)) fun _ => .ask (hs h _)
  exact .bind (.nameArg hQ hP 1) fun name => .bind (.ask (ho name)) fun h =>
    .bind (.argsFrom hQ 2) fun _ => .bind (.forM (extend h)) fun _ => .pure _

theorem locate_within {Q : Request → Prop} (hQ : ∀ r, r.isCommon = true → Q r)
    (hh : ∀ name, Q (.handle name)) (hv : ∀ h, Q (.value h)) (hn : P .missingName)
    (hu : P .undefinedVariable) (find : Bytes → Bytes → Option Nat) (better : Nat → Nat → Bool) :
    (locate find better).Within Q P E :=
  .bind (variableArg_within hQ hh hn hu) fun h => .bind (.argsFrom hQ 2) fun args =>
    .bind (bestMatch_within hQ hv _ _ h none args) fun _ => .pure _

theorem takeAt_within {Q : Request → Prop} (hQ : ∀ r, r.isCommon = true → Q r)
    (hh : ∀ name, Q (.handle name)) (hv : ∀ h, Q (.value h)) (hs : ∀ h v, Q (.setValue h v))
    (hn : P .missingName) (hu : P .undefinedVariable) (find : Bytes → Bytes → Option Nat)
    (better : Nat → Nat → Bool) {taken : Handle → Match → Program Bytes}
    (ht : ∀ h b, (taken h b).Within Q P E) (left : Bytes → Match → Bytes) :
    (takeAt find better taken left).Within Q P E := by
  refine .bind (locate_within hQ hh hv hn hu find better) fun (h, best) => ?_
  cases best with
  | none =>
    exact .bind (.ask (hv h)) fun _ => .bind (.ask (hQ _ rfl)) fun _ =>
      .bind (.ask (hs h _)) fun _ => .pure _
  | some b =>
    exact .bind (ht h b) fun _ => .bind (.ask (hQ _ rfl)) fun _ =>
      .bind (.ask (hv h)) fun _ => .bind (.ask (hs h _)) fun _ => .pure _

theorem before_within {Q : Request → Prop} (hs : ∀ h, Q (.stored h)) (h : Handle) (b : Match) :
    (before h b).Within Q P E :=
  .bind (.ask (hs h)) fun _ => .pure _

theorem behind_within {Q : Request → Prop} (hv : ∀ h, Q (.value h))
    (hE : ∀ start size short, E (.crash start size short)) (h : Handle) (b : Match) :
    (behind h b).Within Q P E := by
  refine .bind (.ask (hv h)) fun s => ?_
  split
  · exact hE _ _ _
  · exact .pure _

end Builtin

/-- The builtins of a registry raise faults of the given kinds only. -/
def Registry.FailsOnly (P : Kind → Prop) (registry : Registry) : Prop :=
  ∀ entry ∈ registry, Program.FailsOnly P entry.2

def Registry.AsksOnly (Q : Request → Prop) (registry : Registry) : Prop :=
  ∀ entry ∈ registry, Program.AsksOnly Q entry.2

theorem Program.asksOnly (p : Program α) : p.AsksOnly fun _ => True := by
  induction p with
  | done a => trivial
  | fail kind evidence cause => trivial
  | abort p => trivial
  | crash start size short => trivial
  | ask r next ih => exact ⟨trivial, ih⟩

theorem Registry.asksOnly (registry : Registry) : registry.AsksOnly fun _ => True :=
  fun entry _ => Program.asksOnly entry.2

theorem Registry.mem_of_lookup {registry : Registry} {name : Bytes} {b : Builtin}
    (h : registry.lookup name = some b) : (name, b) ∈ registry := by
  obtain ⟨before, after, rfl, -⟩ := List.lookup_eq_some_iff.1 h
  simp

/-- The standard builtins that do more than to look at their arguments and to answer: they evaluate
other texts, go on in rounds, take numbers, or give values to entries of the table. -/
def Registry.special : Registry := [
  (utf8 "append", Builtin.append),
  (utf8 "define", Builtin.define),
  (utf8 "eval", Builtin.evalText),
  (utf8 "first", Builtin.first),
  (utf8 "gensym", Builtin.gensym),
  (utf8 "include", Builtin.includeFile),
  (utf8 "last", Builtin.last),
  (utf8 "loop", Builtin.loop),
  (utf8 "set", Builtin.set)]

open Builtin in
theorem Registry.standard_cases {P : Kind → Prop} (hP : ∀ k, k.isBracket = false → P k) :
    ∀ entry ∈ standard, entry ∈ special ∨ Ordinary P entry.2 := by
  have other {name : Bytes} {b : Builtin} (h : Ordinary P b) :
      (name, b) ∈ special ∨ Ordinary P (name, b).2 := .inr h
  have writeOf (f : Bytes → Bytes) :
      Ordinary P (do Program.write (f (← Program.arg 1)); return .finished) :=
    .bind (.arg (fun _ => id) 1) fun _ => .bind (.ask rfl) fun _ => finished
  have cases (holds : Bytes → Bytes → Bool) : Ordinary P (compare holds) :=
    compare_ordinary (hP _ rfl) holds
  have forArgs {f : Nat → Program Unit}
      (hf : ∀ n, (f n).Within (·.isCommon = true) P fun _ => False) :
      Ordinary P (do (← Program.argsFrom 1).forM f; return .finished) :=
    .bind (.argsFrom (fun _ => id) 1) fun _ => .bind (.forM hf) fun _ => finished
  simp only [standard, List.forall_mem_cons]
  refine ⟨other (reduceAll_ordinary _ _), other ?and, .inl (by simp [special]),
    .inl (by simp [special]), other ?isDefined, other (forArgs fun n => ?delete),
    other (reduceFirst_ordinary _), other ?dump, other (writeOf _), other (cases _),
    .inl (by simp [special]), .inl (by simp [special]), other (cases _), .inl (by simp [special]),
    other (forArgs fun n => ?get), other (cases _), .inl (by simp [special]),
    .inl (by simp [special]), other (cases _), other (writeOf _), other ?literal,
    .inl (by simp [special]), other (cases _), other (reduceFirst_ordinary _),
    other (reduceAll_ordinary _ _), other (forArgs fun n => ?mute), other (cases _), other finished,
    other ?isNumber, other ?or, other ?print, other (read_ordinary (hP _ rfl)), other ?rep,
    .inl (by simp [special]), other (writeOf _),
    other (.bind (.arg (fun _ => id) 1) fun _ => hP _ rfl), other (reduceFirst_ordinary _),
    other (substr_ordinary (hP _ rfl)), other (forArgs fun n => ?trim),
    other (forArgs fun n => ?unicode), other (writeFile_ordinary (hP _ rfl)), by simp⟩
  case and =>
    exact .bind (.argsFrom (fun _ => id) 1) fun args =>
      .bind (lastFull_within (fun _ => id) [] args) fun _ => .bind (.ask rfl) fun _ => finished
  case isDefined =>
    exact .bind (.arg (fun _ => id) 1) fun _ => .bind (.ask rfl) fun _ => .bind (.ask rfl) fun _ =>
      .bind (.writeArg (fun _ => id) _) fun _ => finished
  case delete => exact .bind (.arg (fun _ => id) n) fun _ => .ask rfl
  case dump => exact .bind (.ask rfl) fun _ => finished
  case get => exact writeVariable_within (fun _ => id) (hP _ rfl) n
  case literal => exact .bind (.ask rfl) fun _ => .bind (.ask rfl) fun _ => finished
  case mute => exact .bind (.ask rfl) fun _ => .pure ()
  case isNumber =>
    exact .bind (.arg (fun _ => id) 1) fun _ => .bind (.writeArg (fun _ => id) _) fun _ => finished
  case or =>
    exact .bind (.argsFrom (fun _ => id) 1) fun args =>
      .bind (firstFull_within (fun _ => id) args) fun _ => .bind (.ask rfl) fun _ => finished
  case print => exact .bind (.ask rfl) fun _ => .bind (.ask rfl) fun _ => finished
  case rep =>
    exact .bind (.arg (fun _ => id) 1) fun _ =>
      .bind (.numberArg (fun _ => id) (hP _ rfl) 2) fun _ => .bind (.ask rfl) fun _ => finished
  case trim => exact .bind (.arg (fun _ => id) n) fun _ => .ask rfl
  case unicode => exact writeCharacter_within (fun _ => id) (hP _ rfl) (hP _ rfl) n

open Builtin in
theorem Registry.standard_onArguments {P : Kind → Prop} {E : Failure → Prop}
    (hP : ∀ k, k.isBracket = false → P k) (hE : ∀ start size short, E (.crash start size short)) :
    ∀ entry ∈ standard, entry.2 = evalText ∨ entry.2 = includeFile ∨
      Program.OnArguments P entry.2 E := by
  intro entry hentry
  have hQ (r : Request) : r.isCommon = true → r.givesText = false := Request.givesText_of_isCommon
  have taken (find : Bytes → Bytes → Option Nat) (better : Nat → Nat → Bool)
      {taken : Handle → Match → Program Bytes} (ht : ∀ h b, Program.OnArguments P (taken h b) E)
      (left : Bytes → Match → Bytes) : Program.OnArguments P (takeAt find better taken left) E :=
    takeAt_within hQ (fun _ => rfl) (fun _ => rfl) (fun _ _ => rfl) (hP _ rfl) (hP _ rfl) _ _ ht _
  rcases standard_cases hP entry hentry with h | h
  · simp only [special, List.mem_cons, List.not_mem_nil, or_false] at h
    rcases h with rfl | rfl | rfl | rfl | rfl | rfl | rfl | rfl | rfl
    · exact .inr (.inr (append_within hQ (fun _ => rfl) (fun _ => rfl) (fun _ _ => rfl) (hP _ rfl)))
    · exact .inr (.inr (define_within hQ (fun _ _ => rfl) (hP _ rfl)))
    · exact .inl rfl
    · exact .inr (.inr (taken _ _ (before_within fun _ => rfl) _))
    · exact .inr (.inr (gensym_within rfl fun _ => rfl))
    · exact .inr (.inl rfl)
    · exact .inr (.inr (taken _ _ (behind_within (fun _ => rfl) hE) _))
    · exact .inr (.inr (loop_within hQ))
    · exact .inr (.inr (set_within hQ (fun _ _ => rfl) (hP _ rfl)))
  · exact .inr (.inr (h.within.imp hQ (fun _ => id) fun _ => False.elim))

theorem Registry.standard_within {P : Kind → Prop} {E : Failure → Prop}
    (hP : ∀ k, k.isBracket = false → P k) (hE : ∀ start size short, E (.crash start size short)) :
    ∀ entry ∈ standard, Program.Within (fun _ => True) P entry.2 E := by
  intro entry hentry
  rcases standard_onArguments hP hE entry hentry with h | h | h
  · rw [h]
    exact Builtin.evalText_within trivial fun _ => trivial
  · rw [h]
    exact Builtin.includeFile_within (hP _ rfl) trivial (fun _ => trivial) fun _ => trivial
  · exact h.imp (fun _ _ => trivial) (fun _ => id) fun _ => id

theorem Registry.standard_failsOnly {P : Kind → Prop} (hP : ∀ k, k.isBracket = false → P k) :
    standard.FailsOnly P :=
  fun entry hentry =>
    (standard_within (E := fun _ => True) hP (fun _ _ _ => trivial) entry hentry).failsOnly

end TildeText
