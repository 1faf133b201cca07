import TildeText.Problem

namespace TildeText

inductive Kind
  | shortClose
  | extraClose
  | missingClose
  | undefinedMacro
  | undefinedVariable
  | missingName
  | missingParameter
  | notANumber
  | badCharacter
  | badArgument
  | stop
  | readFailed
  | writeFailed
  | badOption
  deriving DecidableEq, Repr

namespace Kind

def all : List Kind :=
  [.shortClose, .extraClose, .missingClose, .undefinedMacro, .undefinedVariable, .missingName,
    .missingParameter, .notANumber, .badCharacter, .badArgument, .stop, .readFailed, .writeFailed,
    .badOption]

def ofNumber? (n : Int) : Option Kind := if n < 1 then none else all[n.toNat - 1]?

def reason : Kind → Bytes
  | .shortClose => utf8 "Short ~>"
  | .extraClose => utf8 "Extra ~>"
  | .missingClose => utf8 "Missing ~>"
  | .undefinedMacro => utf8 "Undefined macro"
  | .undefinedVariable => utf8 "Undefined variable"
  | .missingName => utf8 "Missing name"
  | .missingParameter => utf8 "Missing parameter"
  | .notANumber => utf8 "Not a number"
  | .badCharacter => utf8 "Bad character code"
  | .badArgument => utf8 "Bad argument number"
  | .stop => utf8 "Stop"
  | .readFailed => utf8 "Error in reading file"
  | .writeFailed => utf8 "Error in writing file"
  | .badOption => utf8 "Unrecognized command line parameter"

def reasonOf : Option Kind → Bytes
  | some k => k.reason
  | none => utf8 "Unknown error"

end Kind

structure Fault where
  kind : Kind
  trace : Bytes := []
  evidence : Bytes := []
  cause : Option Problem := none
  deriving DecidableEq

def Fault.describe (trace reason evidence : Bytes) : Bytes :=
  trace ++ reason ++ (if evidence.isEmpty then [] else utf8 ": " ++ evidence) ++ utf8 "."

def Fault.message (f : Fault) : Bytes := describe f.trace f.kind.reason f.evidence

/-- Why something failed: a fault of the text, or a problem outside it that no text answers for. A
crash is not an error that is given back: it ends the program, where a text was to be cut behind its
end. -/
inductive Failure
  | fault (f : Fault)
  | problem (p : Problem)
  | crash (start size : Nat) (short : size < start)
  deriving DecidableEq

namespace Failure

def isCrash : Failure → Bool
  | .crash _ _ _ => true
  | _ => false

def message : Failure → Bytes
  | .fault f => f.message
  | .problem p => p.message
  | .crash start size _ =>
    utf8 "runtime error: slice bounds out of range [" ++ Bytes.decimalNat start ++ utf8 ":" ++
      Bytes.decimalNat size ++ utf8 "]"

end Failure

end TildeText
