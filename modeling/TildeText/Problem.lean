import TildeText.Bytes.Number
import TildeText.Bytes.Quoted

namespace TildeText

/-- What can go wrong outside the macro text itself. A problem that the host has is known by its
text alone. -/
inductive Problem
  | notFound (name : Bytes) (directories : List Bytes)
  | bucketCount (count : Int)
  | noDirectory
  | noTable
  | noFiles
  | namelessBuiltin
  | emptyBuiltin (name : Bytes)
  | host (message : Bytes)
  deriving DecidableEq

namespace Problem

def searched : List Bytes → Bytes
  | [] => []
  | [directory] => utf8 " in the macro directory: " ++ directory
  | directories => utf8 " in any of the macro directories: " ++ Bytes.join (utf8 ", ") directories

def message : Problem → Bytes
  | .notFound name directories =>
    utf8 "macro not found: " ++ Bytes.quote name ++ searched directories
  | .bucketCount count =>
    utf8 "the number of buckets (" ++ Bytes.decimal count ++ utf8 ") must be a power of two"
  | .noDirectory => utf8 "at least one macros directory must be passed"
  | .noTable => utf8 "the macro table must not be nil"
  | .noFiles => utf8 "the file reader/writer must not be nil"
  | .namelessBuiltin => utf8 "a builtin must have a name"
  | .emptyBuiltin name =>
    utf8 "builtin " ++ Bytes.quote name ++ utf8 ": the function must not be nil"
  | .host message => message

def isNotFound : Problem → Bool
  | .notFound _ _ => true
  | _ => false

end Problem

end TildeText
