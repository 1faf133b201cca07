import TildeText.Console.CommandLine
import TildeText.Proofs.Files
import TildeText.Proofs.WriteOnly

/-!
What becomes of the output of a command line. Each directive is entered in a ledger with the text
that it produces by itself, or as a cut where all the output so far goes elsewhere. Nothing is lost
and nothing comes twice: a file gets the texts since the cut before it, and the standard output
those after the last cut. If anything fails with an error, it gets the message alone.
-/

namespace TildeText.Console

/-- A text that is added to the output, or a cut after which the output is empty. -/
inductive Item
  | text (t : Bytes)
  | cut
  deriving DecidableEq

def Item.onto (out : Bytes) : Item → Bytes
  | .text t => out ++ t
  | .cut => []

/-- The texts after the last cut, all together. -/
def sinceCut (items : List Item) : Bytes := items.foldl Item.onto []

namespace Session

def unread (s : Session) : Bytes :=
  match s.input with
  | .text bytes => bytes
  | .broken _ => []

def content (s : Session) (file : Bytes) : Bytes :=
  match s.system.read file with
  | .ok content => content
  | .error _ => []

/-- What the evaluation of a source puts into an empty output. -/
def outputOf (s : Session) (src : Source) : Bytes :=
  match s.processor.eval s.top src with
  | .done _ m => m.out.toBytes
  | _ => []

def items (s : Session) : Directive → List Item
  | .eval text => [.text (s.outputOf ⟨utf8 "[eval]", text⟩)]
  | .go => [.text (s.outputOf ⟨utf8 "[go]", s.unread⟩)]
  | .includeFile file => [.text (s.outputOf ⟨file, s.content file⟩)]
  | .read file => [.text (s.content file)]
  | .mute | .write _ => [.cut]
  | _ => []

/-- The items of directives that are carried out one after another. -/
def ledger (s : Session) : List Directive → List Item
  | [] => []
  | d :: rest =>
    s.items d ++ match s.perform d with
      | .next s => s.ledger rest
      | _ => []

/-- The directives that are come to, the last of which may fail. -/
def dispatched (s : Session) : List Directive → List Directive
  | [] => []
  | d :: rest =>
    d :: match s.perform d with
      | .next s => s.dispatched rest
      | _ => []

end Session

/-- A step that adds items to an output and writes nothing, if it does not fail. -/
def Progress.Accounts (out : Bytes) (terminal : Writer) (system : FileSystem) (reads : Prop)
    (items : List Item) : Progress → Prop
  | .next s =>
    s.out.toBytes = items.foldl Item.onto out ∧ s.terminal = terminal ∧
      s.system.AnswersAs system ∧ (s.readsInput = true ↔ reads)
  | .stop _ => False
  | .failed _ s => s.terminal = terminal
  | .exhausted => True

namespace Progress.Accounts

variable {x : Progress} {system : FileSystem} {items : List Item}

theorem congr (h : x.Accounts out terminal system reads items) (hr : reads ↔ reads') :
    x.Accounts out terminal system reads' items := by
  cases x with
  | next s => exact ⟨h.1, h.2.1, h.2.2.1, h.2.2.2.trans hr⟩
  | stop s => exact h
  | failed e s => exact h
  | exhausted => trivial

theorem append {first : List Item}
    (h : x.Accounts (first.foldl Item.onto out) terminal system reads items) :
    x.Accounts out terminal system reads (first ++ items) := by
  cases x with
  | next s => exact ⟨by rw [List.foldl_append]; exact h.1, h.2⟩
  | stop s => exact h
  | failed e s => exact h
  | exhausted => trivial

end Progress.Accounts

namespace Session

variable {s : Session} {system : FileSystem}

theorem eval_accounts (h : s.system.AnswersAs system) (src : Source) :
    (s.eval src).Accounts s.out.toBytes s.terminal system (s.readsInput = true)
      [.text (s.outputOf src)] := by
  have hout : s.processor.eval s.top src s.out =
      (s.processor.eval s.top src).mapMachine (.onto s.out) := eval_onto _ _ _ _ _ _
  have hhost : (s.processor.eval s.top src).Holds fun m =>
      m.Hosted system s.processor.state.diagnostics.refusal :=
    Machine.Hosted.eval ⟨h, rfl⟩ _ _ _
  rw [eval, outputOf, hout]
  cases hrun : s.processor.eval s.top src with
  | done _ m =>
    rw [hrun] at hhost
    exact ⟨Output.toBytes_write _ _, rfl, hhost.system, Iff.rfl⟩
  | failed e m => exact rfl
  | exhausted => trivial

theorem evalInput_accounts (h : s.system.AnswersAs system) (name : Bytes) :
    (s.evalInput name).Accounts s.out.toBytes s.terminal system (s.readsInput = true)
      [.text (s.outputOf ⟨name, s.unread⟩)] := by
  cases hinput : s.input with
  | text bytes =>
    simp only [evalInput, unread, hinput]
    exact eval_accounts (s := { s with input := .text [] }) h ⟨name, bytes⟩
  | broken p =>
    simp only [evalInput, hinput]
    exact rfl

theorem perform_accounts (h : s.system.AnswersAs system) {d : Directive}
    (hd : d ≠ .help ∧ d ≠ .repl) :
    (s.perform d).Accounts s.out.toBytes s.terminal system
      (s.readsInput = true ∧ d ≠ .go ∧ d ≠ .no) (s.items d) := by
  cases d with
  | help => exact absurd rfl hd.1
  | repl => exact absurd rfl hd.2
  | eval text => exact (eval_accounts h _).congr (by simp)
  | go => exact (evalInput_accounts (s := { s with readsInput := false }) h _).congr (by simp)
  | includeFile file =>
    cases hread : s.system.read file with
    | ok content =>
      simp only [perform, withFile, items, Session.content, hread]
      exact (eval_accounts h _).congr (by simp)
    | error p =>
      simp only [perform, withFile, hread]
      exact rfl
  | read file =>
    cases hread : s.system.read file with
    | ok content =>
      simp only [perform, withFile, items, Session.content, hread]
      exact ⟨Output.toBytes_write _ _, rfl, h, by simp⟩
    | error p =>
      simp only [perform, withFile, hread]
      exact rfl
  | lib directory =>
    rw [perform, addDirectory]
    split
    · exact ⟨rfl, rfl, h, by simp⟩
    · exact rfl
  | write file =>
    have hsystem := h.write file s.out.toBytes
    rw [perform, writeOut]
    split
    · rename_i f hwrite
      rw [hwrite] at hsystem
      exact ⟨rfl, rfl, hsystem, by simp [setSystem]⟩
    · exact rfl
  | wrong f => exact rfl
  | _ => exact ⟨rfl, rfl, h, by simp⟩

theorem performAll_accounts (h : s.system.AnswersAs system) {ds : List Directive}
    (hd : ∀ d ∈ s.dispatched ds, d ≠ .help ∧ d ≠ .repl) :
    (s.performAll ds).Accounts s.out.toBytes s.terminal system
      (s.readsInput = true ∧ .go ∉ ds ∧ .no ∉ ds) (s.ledger ds) := by
  induction ds generalizing s with
  | nil => exact ⟨rfl, rfl, h, by simp⟩
  | cons d rest ih =>
    obtain ⟨hfirst, hrest⟩ := List.forall_mem_cons.1 hd
    have hstep := perform_accounts h hfirst
    simp only [performAll, ledger]
    cases hs : s.perform d with
    | next s' =>
      rw [hs] at hstep hrest
      obtain ⟨hout, hterminal, hsystem, hreads⟩ := hstep
      have hlater := ih hsystem hrest
      rw [hout, hterminal] at hlater
      refine hlater.append.congr ?_
      rw [hreads, List.mem_cons, List.mem_cons]
      grind
    | stop s' => rw [hs] at hstep; exact hstep
    | failed e s' => rw [hs] at hstep; exact hstep
    | exhausted => trivial

theorem performAll_cons_eq_next {d : Directive} {rest : List Directive} {s s' : Session} :
    s.performAll (d :: rest) = .next s' ↔
      ∃ s₁, s.perform d = .next s₁ ∧ s₁.performAll rest = .next s' := by
  rw [performAll]
  cases s.perform d with
  | next s₁ => simp
  | stop s₁ => simp
  | failed e s₁ => simp
  | exhausted => simp

theorem performAll_append_eq_next {ds rest : List Directive} {s s' : Session} :
    s.performAll (ds ++ rest) = .next s' ↔
      ∃ s₁, s.performAll ds = .next s₁ ∧ s₁.performAll rest = .next s' := by
  induction ds generalizing s with
  | nil => simp [performAll]
  | cons d ds ih =>
    simp only [List.cons_append, performAll_cons_eq_next, ih]
    grind

theorem dispatched_eq {ds : List Directive} {s s' : Session} (h : s.performAll ds = .next s') :
    s.dispatched ds = ds := by
  induction ds generalizing s with
  | nil => rfl
  | cons d rest ih =>
    obtain ⟨s₁, hd, hrest⟩ := performAll_cons_eq_next.1 h
    rw [dispatched, hd]
    exact congrArg (d :: ·) (ih hrest)

theorem performAll_write {before after : List Directive} {s' : Session}
    (hsystem : s.system.AnswersAs system) (hout : s.out = {})
    (hd : ∀ d ∈ before, d ≠ .help ∧ d ≠ .repl)
    (h : s.performAll (before ++ .write file :: after) = .next s') :
    ∃ s₁ s₂, s.performAll before = .next s₁ ∧ s₁.perform (.write file) = .next s₂ ∧
      s₂.system.written = (file, sinceCut (s.ledger before)) :: s₁.system.written ∧
      (system.Keeps → s₂.system.read file = .ok (sinceCut (s.ledger before))) := by
  obtain ⟨s₁, h₁, hrest⟩ := performAll_append_eq_next.1 h
  obtain ⟨s₂, h₂, -⟩ := performAll_cons_eq_next.1 hrest
  refine ⟨s₁, s₂, h₁, h₂, ?_⟩
  have haccounts := performAll_accounts hsystem (by rwa [dispatched_eq h₁])
  rw [h₁, hout] at haccounts
  obtain ⟨hpending, -, hsystem₁, -⟩ := haccounts
  have hpending : s₁.out.toBytes = sinceCut (s.ledger before) := hpending
  rw [perform, writeOut, hpending] at h₂
  split at h₂
  · rename_i f hwrite
    cases h₂
    refine ⟨congrArg FileSystem.written (congrArg Prod.snd hwrite).symm, fun hkeeps => ?_⟩
    exact (hsystem₁.keeps hkeeps).read_write hwrite
  · cases h₂

theorem said_say (h : s.terminal.Accepts) (text : Bytes) : (s.say text).said = s.said ++ text :=
  (h.toBytes_write [text]).trans (by rw [List.flatten_singleton, said])

theorem print_eq (h : s.terminal.Accepts) (text : Bytes) :
    ∃ s', s.print text = .stop s' ∧ s'.said = s.said ++ text := by
  obtain ⟨w, hwrite, -⟩ := h.write [text]
  have hsaid := said_say h text
  rw [say, hwrite] at hsaid
  exact ⟨_, by rw [print, hwrite], hsaid⟩

inductive Told (s : Session) (final : List Item) : Progress → Prop
  | done {s' : Session} (h : s'.said = s.said ++ final.foldl Item.onto s.out.toBytes) :
    Told s final (.stop s')
  | failed {s' : Session} (h : s'.terminal = s.terminal) : Told s final (.failed e s')
  | exhausted : Told s final .exhausted

theorem finish_told (h : s.terminal.Accepts) :
    Told s (if s.readsInput then [.text (s.outputOf ⟨utf8 "[standard input]", s.unread⟩)] else [])
      s.finish := by
  rw [finish]
  split
  · have hinput := evalInput_accounts (.refl s.system) (utf8 "[standard input]")
    cases he : s.evalInput (utf8 "[standard input]") with
    | next s₁ =>
      rw [he] at hinput
      obtain ⟨hout, hterminal, -⟩ := hinput
      obtain ⟨s', hprint, hsaid⟩ := print_eq (s := s₁) (hterminal ▸ h) s₁.out.toBytes
      simp only [hprint]
      refine .done ?_
      rw [hsaid, hout, said, hterminal]
      rfl
    | stop s₁ => rw [he] at hinput; exact hinput.elim
    | failed e s₁ => rw [he] at hinput; exact .failed hinput
    | exhausted => exact .exhausted
  · obtain ⟨s', hprint, hsaid⟩ := print_eq h s.out.toBytes
    rw [hprint]
    exact .done hsaid

theorem start_eq_ok {given : Input} {w : Writer} (h : start system given w = .ok s) :
    s.out = {} ∧ s.terminal = w ∧ s.readsInput = true ∧ s.system.AnswersAs system := by
  rw [start] at h
  cases hp : Processor.ofParts system [] with
  | error p => rw [hp] at h; cases h
  | ok p =>
    rw [hp] at h
    cases h
    cases hp
    exact ⟨rfl, rfl, rfl, rfl⟩

theorem report?_failed {s' : Session} (h : s.terminal.Accepts) (hsame : s'.terminal = s.terminal)
    {e : Failure} (hr : (Progress.failed e s').report? = some r) :
    (e.isCrash = false ∧ r.status = 1 ∧ r.session.said = s.said ++ e.message ++ [0x0a]) ∨
      (e.isCrash = true ∧ r.status = 2 ∧ r.session.said = s.said) := by
  have hsaid : s'.said = s.said := by rw [said, hsame, said]
  rw [Progress.report?] at hr
  split at hr
  · rename_i hcrash
    cases hr
    exact .inr ⟨hcrash, rfl, hsaid⟩
  · rename_i hcrash
    cases hr
    refine .inl ⟨eq_false_of_ne_true hcrash, rfl, ?_⟩
    rw [List.append_assoc, ← hsaid]
    exact said_say (hsame ▸ h) _

end Session

/-- A command line on a file system, as far as neither help nor an interactive session is come to,
with a standard output that accepts what is written to it. If it ends well, then what a file is told
to hold, and does hold if the file system keeps what it is told, are the texts since the cut before
it, and the standard output gets those since the last cut, with that of the standard input at the
end if no directive said otherwise. If it fails, the standard output gets the message and nothing
else; if it crashes, nothing. -/
theorem Session.run_accounts {system : FileSystem} {input : Input} {terminal : Writer} {s : Session}
    {args : List Bytes} {r : Report} (ht : terminal.Accepts)
    (hs : Session.start system input terminal = .ok s)
    (hd : ∀ d ∈ s.dispatched (Directive.parse args), d ≠ .help ∧ d ≠ .repl)
    (hr : (s.run args).report? = some r) :
    (r.status = 0 ∧ ∃ s', s.performAll (Directive.parse args) = .next s' ∧
      (∀ before file after, Directive.parse args = before ++ .write file :: after →
        ∃ s₁ s₂, s.performAll before = .next s₁ ∧ s₁.perform (.write file) = .next s₂ ∧
          s₂.system.written = (file, sinceCut (s.ledger before)) :: s₁.system.written ∧
          (system.Keeps → s₂.system.read file = .ok (sinceCut (s.ledger before)))) ∧
      (.go ∈ Directive.parse args ∨ .no ∈ Directive.parse args →
        r.session.said = s.said ++ sinceCut (s.ledger (Directive.parse args))) ∧
      (.go ∉ Directive.parse args → .no ∉ Directive.parse args →
        r.session.said = s.said ++ sinceCut (s.ledger (Directive.parse args) ++
          [.text (s'.outputOf ⟨utf8 "[standard input]", s'.unread⟩)]))) ∨
    ∃ e s', s.run args = .failed e s' ∧
      ((e.isCrash = false ∧ r.status = 1 ∧ r.session.said = s.said ++ e.message ++ [0x0a]) ∨
        (e.isCrash = true ∧ r.status = 2 ∧ r.session.said = s.said)) := by
  obtain ⟨hempty, hterminal, hreads, hsystem⟩ := Session.start_eq_ok hs
  rw [← hterminal] at ht
  have hall := Session.performAll_accounts hsystem hd
  rw [hempty, hreads] at hall
  rw [Session.run] at hr ⊢
  cases hnext : s.performAll (Directive.parse args) with
  | next s' =>
    rw [hnext] at hall hr
    obtain ⟨hout, hterminal', -, hreads'⟩ := hall
    rw [Session.dispatched_eq hnext] at hd
    have htold := Session.finish_told (s := s') (hterminal' ▸ ht)
    simp only at hr ⊢
    generalize s'.finish = x at htold hr ⊢
    cases htold with
    | exhausted => cases hr
    | failed h => exact .inr ⟨_, _, rfl, Session.report?_failed ht (h.trans hterminal') hr⟩
    | done h =>
      cases hr
      have hsame : s'.said = s.said := by rw [Session.said, hterminal', Session.said]
      rw [hsame] at h
      refine .inl ⟨rfl, s', rfl, ?_, fun hsaid => ?_, fun hgo hno => ?_⟩
      · intro before file after hparse
        rw [hparse] at hnext hd
        exact Session.performAll_write hsystem hempty
          (fun d hmem => hd d (List.mem_append_left _ hmem)) hnext
      · have hquiet : ¬ s'.readsInput = true := fun hinput => by
          obtain ⟨-, hgo, hno⟩ := hreads'.1 hinput
          exact hsaid.elim hgo hno
        rw [if_neg hquiet] at h
        exact h.trans (congrArg (s.said ++ ·) hout)
      · rw [if_pos (hreads'.2 ⟨rfl, hgo, hno⟩), hout] at h
        rw [sinceCut, List.foldl_append]
        exact h
  | stop s' => rw [hnext] at hall; exact hall.elim
  | failed e s' =>
    rw [hnext] at hall hr
    exact .inr ⟨e, s', rfl, Session.report?_failed ht hall hr⟩
  | exhausted => rw [hnext] at hr; cases hr

def writingArgs : List Bytes :=
  [utf8 "t", utf8 "-no", utf8 "-e", utf8 "a<~1~v~>", utf8 "-w", utf8 "f", utf8 "-i", utf8 "f",
    utf8 "-e", utf8 "<~1~>"]

theorem Session.run_accounts_writing :
    ∃ s r, Session.start ({} : Disk).system (.text (utf8 "unread")) = .ok s ∧
      (∀ d ∈ s.dispatched (Directive.parse writingArgs), d ≠ .help ∧ d ≠ .repl) ∧
      (s.run writingArgs).report? = some r ∧ r.status = 0 ∧ r.session.said = utf8 "av" ∧
      ∃ s₁ s₂ : Session, s₁.perform (.write (utf8 "f")) = .next s₂ ∧
        s₂.system.read (utf8 "f") = .ok (utf8 "a") := by
  have hrun : ∃ s r, Session.start ({} : Disk).system (.text (utf8 "unread")) = .ok s ∧
      (∀ d ∈ s.dispatched (Directive.parse writingArgs), d ≠ .help ∧ d ≠ .repl) ∧
      (s.run writingArgs).report? = some r ∧ r.status = 0 ∧
      s.said ++ sinceCut (s.ledger (Directive.parse writingArgs)) = utf8 "av" ∧
      sinceCut (s.ledger [.value (utf8 "t"), .no, .eval (utf8 "a<~1~v~>")]) = utf8 "a" :=
    ⟨_, _, rfl, by decide +kernel, rfl, rfl, rfl, rfl⟩
  obtain ⟨s, r, hs, hd, hr, hstatus, hlast, hfile⟩ := hrun
  refine ⟨s, r, hs, hd, hr, hstatus, ?_⟩
  rcases Session.run_accounts (fun _ _ => rfl) hs hd hr with
    ⟨-, s', -, hwrites, hsaid, -⟩ | ⟨e, s', -, ⟨-, hfailed, -⟩ | ⟨-, hcrashed, -⟩⟩
  · obtain ⟨s₁, s₂, -, h₂, -, hread⟩ := hwrites [.value (utf8 "t"), .no, .eval (utf8 "a<~1~v~>")]
      (utf8 "f") [.includeFile (utf8 "f"), .eval (utf8 "<~1~>")] rfl
    exact ⟨(hsaid (.inr (by decide))).trans hlast, s₁, s₂, h₂,
      (hread (Disk.system_keeps {})).trans (congrArg _ hfile)⟩
  · rw [hstatus] at hfailed
    cases hfailed
  · rw [hstatus] at hcrashed
    cases hcrashed

end TildeText.Console
