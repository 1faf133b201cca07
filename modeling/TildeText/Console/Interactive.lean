import TildeText.Console.Session

/-!
Interactive evaluation. Lines are gathered until every invocation that they open is also closed;
such a chunk is then evaluated in the top frame and the result is shown at once. A fault is shown
too, and the session goes on. An interrupt drops the lines gathered so far.
-/

namespace TildeText.Console

inductive Line
  | text (s : Bytes)
  | interrupt

namespace Interactive

def firstPrompt : Bytes := utf8 "tilton> "

def furtherPrompt : Bytes := utf8 "  ...   "

def prompt (gathered : Bytes) : Bytes :=
  if gathered.isEmpty then firstPrompt else furtherPrompt

def gather (gathered line : Bytes) : Bytes :=
  if gathered.isEmpty then line else gathered ++ 0x0a :: line

/-- The prompts for the lines of a chunk, and the chunk with the lines after it, unless the input
ends first. A chunk that is interrupted counts as empty. -/
def readChunk (gathered : Bytes) : List Line → List Bytes × Option (Bytes × List Line)
  | [] => ([prompt gathered], none)
  | .interrupt :: rest => ([prompt gathered], some ([], rest))
  | .text line :: rest =>
    let chunk := gather gathered line
    if chunk.isComplete then ([prompt gathered], some (chunk, rest))
    else
      let (prompts, read) := readChunk chunk rest
      (prompt gathered :: prompts, read)

def entry (chunk : Bytes) : Bytes := chunk.map fun b => if b = 0x0a then 0x20 else b

def shown (result : Bytes) : List Bytes :=
  if result.isEmpty then [] else if result.getLast? = some 0x0a then [result] else [result, [0x0a]]

theorem length_lt_of_readChunk {gathered chunk : Bytes} {lines rest : List Line}
    {prompts : List Bytes} (h : readChunk gathered lines = (prompts, some (chunk, rest))) :
    rest.length < lines.length := by
  induction lines generalizing gathered prompts with
  | nil => cases h
  | cons line lines ih =>
    cases line with
    | interrupt =>
      cases h
      exact Nat.lt_succ_self _
    | text line =>
      rw [readChunk] at h
      split at h
      · cases h
        exact Nat.lt_succ_self _
      · have hread := congrArg Prod.snd h
        exact Nat.lt_succ_of_lt (ih (Prod.ext rfl hread))

end Interactive

open Interactive

structure Exchange where
  prompt : Bytes
  after : Session

namespace Session

def ask (s : Session) (prompt : Bytes) : Session :=
  { s with terminal := (s.terminal.write (s.editor.echo prompt)).2 }

/-- The exchanges of a chunk: nothing but prompts is written before its last line is there. -/
def exchanges (s : Session) : List Bytes → Session → List Exchange
  | [], _ => []
  | [prompt], after => [⟨prompt, after⟩]
  | prompt :: rest, after => ⟨prompt, s.ask prompt⟩ :: (s.ask prompt).exchanges rest after

def evalChunk (s : Session) (chunk : Bytes) : Progress :=
  match s.processor.eval s.top ⟨utf8 "[repl]", chunk⟩ with
  | .done _ m => .next ((shown m.out.toBytes).foldl say (s.resume m))
  | .failed e m =>
    if e.isCrash then .failed e (s.resume m)
    else .next ((s.resume m).complain (e.message ++ [0x0a]))
  | .exhausted => .exhausted

def answer (s : Session) (chunk : Bytes) : Progress :=
  if Bytes.isWhite chunk then .next s
  else { s with editor := s.editor.add (entry chunk) }.evalChunk chunk

/-- Goes through the lines and to the end of the input, where the lines of an open chunk are
dropped. -/
def interact (s : Session) (lines : List Line) : Progress × List Exchange :=
  match h : readChunk [] lines with
  | (prompts, none) =>
    let after := (prompts.foldl ask s).say [0x0a]
    (.next after, s.exchanges prompts after)
  | (prompts, some (chunk, rest)) =>
    have : rest.length < lines.length := length_lt_of_readChunk h
    match (prompts.foldl ask s).answer chunk with
    | .next after =>
      let (x, later) := after.interact rest
      (x, s.exchanges prompts after ++ later)
    | x => (x, [])
termination_by lines.length

def inputLines (s : Session) : List Line :=
  match s.input with
  | .text bytes => (s.editor.lines bytes).map Line.text
  | .broken _ => []

def historyFile (s : Session) : Bytes := Path.join s.home (utf8 ".tilton_history")

def saveHistory (s : Session) : Session :=
  s.setSystem (s.system.write s.historyFile s.editor.save).2

end Session

def Progress.finally (f : Session → Session) : Progress → Progress
  | .next s => .next (f s)
  | .stop s => .stop (f s)
  | .failed e s => .failed e (f s)
  | .exhausted => .exhausted

def Session.converse (s : Session) : Progress :=
  let loaded := { s with editor := s.editor.load (s.system.content? s.historyFile) }
  let greeted := loaded.say (utf8 "tilton " ++ Processor.version ++ [0x0a])
  ({ greeted with input := .text [] }.interact s.inputLines).1.finally saveHistory

end TildeText.Console
