import TildeText.Fault

namespace TildeText.Console

inductive Flag
  | eval
  | go
  | help
  | includeFile
  | lib
  | mute
  | no
  | read
  | repl
  | set
  | suffix
  | write
  deriving DecidableEq

inductive Directive
  | value (s : Bytes)
  | slot (n : Nat)
  | eval (s : Bytes)
  | go
  | help
  | includeFile (file : Bytes)
  | lib (directory : Bytes)
  | mute
  | no
  | read (file : Bytes)
  | repl
  | set (name value : Bytes)
  | suffix (s : Bytes)
  | write (file : Bytes)
  | wrong (f : Fault)
  deriving DecidableEq

namespace Flag

def names : List (Bytes × Flag) :=
  [(utf8 "eval", .eval), (utf8 "go", .go), (utf8 "help", .help), (utf8 "include", .includeFile),
    (utf8 "lib", .lib), (utf8 "mute", .mute), (utf8 "no", .no), (utf8 "read", .read),
    (utf8 "repl", .repl), (utf8 "set", .set), (utf8 "suffix", .suffix), (utf8 "write", .write)]

def letters : List (Bytes × Flag) :=
  [(utf8 "e", .eval), (utf8 "g", .go), (utf8 "h", .help), (utf8 "i", .includeFile), (utf8 "m", .mute),
    (utf8 "n", .no), (utf8 "r", .read), (utf8 "s", .set), (utf8 "w", .write)]

def ofName? (name : Bytes) : Option Flag := (names.lookup name).or (letters.lookup (name.take 1))

end Flag

inductive Word
  | plain
  | flag (f : Flag)
  | digit (n : Nat)
  | unknown
  deriving DecidableEq

def Word.ofBytes (hasMore : Bool) : Bytes → Word
  | 0x2d :: name =>
    match Flag.ofName? name with
    | some f => .flag f
    | none =>
      match name with
      | c :: _ =>
        if Bytes.isDigit c && hasMore then .digit (Bytes.digitValue c) else .unknown
      | [] => .unknown
  | _ => .plain

def Directive.missing (option : String) : Directive :=
  .wrong { kind := .missingParameter, evidence := utf8 option }

def Directive.parse : List Bytes → List Directive
  | [] => []
  | arg :: rest =>
    match Word.ofBytes (!rest.isEmpty) arg, rest with
    | .plain, rest => .value arg :: parse rest
    | .digit n, rest => .slot n :: parse rest
    | .unknown, _ => [.wrong { kind := .badOption, evidence := arg }]
    | .flag .go, rest => .go :: parse rest
    | .flag .help, rest => .help :: parse rest
    | .flag .mute, rest => .mute :: parse rest
    | .flag .no, rest => .no :: parse rest
    | .flag .repl, rest => .repl :: parse rest
    | .flag .eval, s :: rest => .eval s :: parse rest
    | .flag .eval, [] => [missing "-eval"]
    | .flag .includeFile, file :: rest => .includeFile file :: parse rest
    | .flag .includeFile, [] => [missing "-include"]
    | .flag .lib, directory :: rest => .lib directory :: parse rest
    | .flag .lib, [] => [missing "-lib"]
    | .flag .read, file :: rest => .read file :: parse rest
    | .flag .read, [] => [missing "-read"]
    | .flag .set, name :: v :: rest => .set name v :: parse rest
    | .flag .set, _ => [missing "-set"]
    | .flag .suffix, s :: rest => .suffix s :: parse rest
    | .flag .suffix, [] => [missing "-suffix"]
    | .flag .write, file :: rest => .write file :: parse rest
    | .flag .write, [] => [missing "-write"]

end TildeText.Console
