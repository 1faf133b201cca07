import TildeText.Problem

/-!
Where files are kept. Nothing is known of a file system, nor of other files that a host provides,
but that what they answer is determined by what was asked of them before.
-/

namespace TildeText

/-- The files of the host. What is there depends on what it was told to write, the latest first,
whether it did so or not. Reading changes nothing. -/
structure FileSystem where
  written : List (Bytes × Bytes) := []
  onRead : List (Bytes × Bytes) → Bytes → Except Problem Bytes
  onWrite : List (Bytes × Bytes) → Bytes → Bytes → Except Problem Unit
  onCheckFile : List (Bytes × Bytes) → Bytes → Except Problem Unit
  onCheckDirectory : List (Bytes × Bytes) → Bytes → Except Problem Unit

namespace FileSystem

def empty : FileSystem where
  onRead _ _ := .error (.host [])
  onWrite _ _ _ := .error (.host [])
  onCheckFile _ _ := .error (.host [])
  onCheckDirectory _ _ := .error (.host [])

def content? (f : FileSystem) (path : Bytes) : Option Bytes := (f.onRead f.written path).toOption

def checkDirectory (f : FileSystem) (path : Bytes) : Except Problem Unit :=
  f.onCheckDirectory f.written path

def read (f : FileSystem) (path : Bytes) : Except Problem Bytes :=
  match f.onCheckFile f.written path with
  | .ok _ => f.onRead f.written path
  | .error e => .error e

def write (f : FileSystem) (path content : Bytes) : Except Problem Unit × FileSystem :=
  (f.onWrite f.written path content, { f with written := (path, content) :: f.written })

end FileSystem

inductive Access
  | read (name : Bytes)
  | write (name content : Bytes)
  deriving DecidableEq

/-- Other files that a host provides for macro text. They remember what they need of the accesses to
them, readings included. -/
structure Files where
  past : List Access := []
  onRead : List Access → Bytes → Except Problem Bytes × List Access
  onWrite : List Access → Bytes → Bytes → Except Problem Unit × List Access

namespace Files

def read (f : Files) (name : Bytes) : Except Problem Bytes × Files :=
  let (content, past) := f.onRead f.past name
  (content, { f with past })

def write (f : Files) (name content : Bytes) : Except Problem Unit × Files :=
  let (result, past) := f.onWrite f.past name content
  (result, { f with past })

end Files

/-- Macro text gets at the files of the host itself, unless other ones are provided. -/
structure Storage where
  system : FileSystem := .empty
  files : Option Files := none

namespace Storage

def read (s : Storage) (name : Bytes) : Except Problem Bytes × Storage :=
  match s.files with
  | none => (s.system.read name, s)
  | some f =>
    let (content, f) := f.read name
    (content, { s with files := some f })

def write (s : Storage) (name content : Bytes) : Except Problem Unit × Storage :=
  match s.files with
  | none =>
    let (result, system) := s.system.write name content
    (result, { s with system })
  | some f =>
    let (result, f) := f.write name content
    (result, { s with files := some f })

end Storage

end TildeText
