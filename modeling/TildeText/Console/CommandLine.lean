import TildeText.Console.Directive
import TildeText.Console.Interactive

/-!
Carrying out a command line. The directives are followed in order, and then the standard input is
evaluated unless a directive said otherwise. Output is written once everything has succeeded; if
anything fails with an error, the message alone is written, to both streams.
-/

namespace TildeText.Console

def usage : Bytes := utf8 "  tilton command line parameters:
    -eval <tilton expression>
    -go
    -help
    -include <filespec>
    -lib <directory>
    -mute
    -no
    -read <filespec>
    -repl
    -set <name> <value>
    -suffix <suffix>
    -write <filespec>
    -<digit>
"

namespace Session

def fault (s : Session) (kind : Kind) (evidence : Bytes) (cause : Problem) : Progress :=
  .failed (.fault { kind, evidence, cause := some cause }) s

def withFile (s : Session) (name : Bytes) (next : Bytes → Progress) : Progress :=
  match s.system.read name with
  | .ok content => next content
  | .error e => s.fault .readFailed name e

def addDirectory (s : Session) (directory : Bytes) : Progress :=
  match s.processor.state.dictionary.addDirectories s.system [directory] with
  | .ok d => .next { s with processor := s.processor.setDictionary d }
  | .error e => s.fault .readFailed directory e

def writeOut (s : Session) (name : Bytes) : Progress :=
  match s.system.write name s.out.toBytes with
  | (.ok _, f) => .next { s.setSystem f with out := {} }
  | (.error e, f) => (s.setSystem f).fault .writeFailed name e

def print (s : Session) (text : Bytes) : Progress :=
  match s.terminal.write [text] with
  | (.ok _, t) => .stop { s with terminal := t }
  | (.error e, t) => .failed (.problem e) { s with terminal := t }

def perform (s : Session) : Directive → Progress
  | .value v => .next { s with top := s.top.assign s.slot v, slot := s.slot + 1 }
  | .slot n => .next { s with slot := n }
  | .eval text => s.eval ⟨utf8 "[eval]", text⟩
  | .go => { s with readsInput := false }.evalInput (utf8 "[go]")
  | .help => s.print usage
  | .includeFile file => s.withFile file fun content => s.eval ⟨file, content⟩
  | .lib directory => s.addDirectory directory
  | .mute => .next { s with out := {} }
  | .no => .next { s with readsInput := false }
  | .read file => s.withFile file fun content => .next { s with out := s.out.write content }
  | .repl => { s with readsInput := false }.converse
  | .set name value => .next { s with processor := s.processor.install name value }
  | .suffix text =>
    .next { s with
      processor := s.processor.setDictionary (s.processor.state.dictionary.addSuffix text) }
  | .write file => s.writeOut file
  | .wrong f => .failed (.fault f) s

def performAll (s : Session) : List Directive → Progress
  | [] => .next s
  | d :: rest =>
    match s.perform d with
    | .next s => s.performAll rest
    | other => other

def finish (s : Session) : Progress :=
  if s.readsInput then
    match s.evalInput (utf8 "[standard input]") with
    | .next s => s.print s.out.toBytes
    | other => other
  else
    s.print s.out.toBytes

def report (s : Session) (failure : Failure) : Session :=
  let message := failure.message ++ [0x0a]
  (s.say message).complain message

end Session

structure Report where
  status : Nat
  session : Session

/-- The end of a session and its exit status. Of a crash only the first line is written, and to the
standard error alone. -/
def Progress.report? : Progress → Option Report
  | .next s | .stop s => some ⟨0, s⟩
  | .failed e s =>
    if e.isCrash then some ⟨2, s.complain (utf8 "panic: " ++ e.message ++ [0x0a])⟩
    else some ⟨1, s.report e⟩
  | .exhausted => none

def Session.run (s : Session) (args : List Bytes) : Progress :=
  match s.performAll (Directive.parse args) with
  | .next s => s.finish
  | other => other

end TildeText.Console
