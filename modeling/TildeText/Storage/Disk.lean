import TildeText.Storage
import TildeText.Storage.Path

namespace TildeText

inductive Trouble
  | noEntry
  | notDirectory
  | isDirectory
  | invalid
  | tooLong
  deriving DecidableEq

namespace Trouble

def message : Trouble → Bytes
  | .noEntry => utf8 "no such file or directory"
  | .notDirectory => utf8 "not a directory"
  | .isDirectory => utf8 "is a directory"
  | .invalid => utf8 "invalid argument"
  | .tooLong => utf8 "file name too long"

def checking (path : Bytes) : Trouble → Problem
  | .noEntry => .host (utf8 "path: " ++ Bytes.quote path ++ utf8 " should exist but doesn't")
  | t => .host (utf8 "path: " ++ Bytes.quote path ++ utf8 " error: stat " ++ path ++ utf8 ": " ++
      t.message)

def opening (path : Bytes) (t : Trouble) : Problem :=
  .host (utf8 "open " ++ path ++ utf8 ": " ++ t.message)

def reading (path : Bytes) (t : Trouble) : Problem :=
  .host (utf8 "read " ++ path ++ utf8 ": " ++ t.message)

end Trouble

inductive Anchor
  | above (levels : Nat)
  | root
  deriving DecidableEq

structure Place where
  anchor : Anchor
  names : List Bytes
  deriving DecidableEq

inductive Node
  | file (content : Bytes)
  | directory
  deriving DecidableEq

structure Disk where
  nodes : List (Place × Node) := []

namespace Place

def here : Place := ⟨.above 0, []⟩

def child (p : Place) (name : Bytes) : Place := ⟨p.anchor, p.names ++ [name]⟩

def parent (p : Place) : Place :=
  match p.names, p.anchor with
  | [], .above n => ⟨.above (n + 1), []⟩
  | [], .root => p
  | _, _ => ⟨p.anchor, p.names.dropLast⟩

end Place

def nameLimit : Nat := 255

def pathLimit : Nat := 4096

namespace Disk

/-- What is at a place. The directories that only the working directory lies in are there without
being listed. -/
def node? (d : Disk) (p : Place) : Option Node :=
  if p.names.isEmpty then some .directory else d.nodes.lookup p

def put (d : Disk) (p : Place) (n : Node) : Disk := ⟨(p, n) :: d.nodes.filter (·.1 ≠ p)⟩

def enter (d : Disk) (p : Place) (part : Bytes) : Except Trouble Place :=
  match d.node? p with
  | none => .error .noEntry
  | some (.file _) => .error .notDirectory
  | some .directory =>
    if part = [] ∨ part = Path.dot then .ok p
    else if part = Path.dotDot then .ok p.parent
    else if part.length > nameLimit then .error .tooLong
    else .ok (p.child part)

def follow (d : Disk) (p : Place) : List Bytes → Except Trouble Place
  | [] => .ok p
  | part :: parts =>
    match d.enter p part with
    | .ok q => d.follow q parts
    | .error t => .error t

def refusal? (path : Bytes) : Option Trouble :=
  if path.contains 0 then some .invalid
  else if path.isEmpty then some .noEntry
  else if path.length ≥ pathLimit then some .tooLong
  else none

def start (path : Bytes) : Place := if Path.isRooted path then ⟨.root, []⟩ else .here

def stat (d : Disk) (path : Bytes) : Except Trouble Node :=
  match refusal? path with
  | some t => .error t
  | none =>
    match d.follow (start path) (Path.parts path) with
    | .error t => .error t
    | .ok p => (d.node? p).elim (.error .noEntry) .ok

def read (d : Disk) (path : Bytes) : Except Problem Bytes :=
  match d.stat path with
  | .ok (.file content) => .ok content
  | .ok .directory => .error (Trouble.reading path .isDirectory)
  | .error t => .error (t.opening path)

def checkFile (d : Disk) (path : Bytes) : Except Problem Unit :=
  match d.stat path with
  | .ok (.file _) => .ok ()
  | .ok .directory =>
    .error (.host (Bytes.quote (Path.base path) ++ utf8 " should be a regular file"))
  | .error t => .error (t.checking path)

def checkDirectory (d : Disk) (path : Bytes) : Except Problem Unit :=
  match d.stat path with
  | .ok .directory => .ok ()
  | .ok (.file _) =>
    .error (.host (Bytes.quote (Path.base path) ++ utf8 " should be a directory"))
  | .error t => .error (t.checking path)

/-- The place of a file to be written. A path that ends in a slash, `.` or `..` can only mean a
directory. -/
def target (d : Disk) (path : Bytes) : Except Trouble Place :=
  match refusal? path with
  | some t => .error t
  | none =>
    let named := Path.parts (Path.stripSlashes path)
    let last := named.getLast?.getD []
    match d.follow (start path) (named.dropLast ++ [Path.dot]) with
    | .error t => .error t
    | .ok p =>
      if Path.stripSlashes path ≠ path ∨ last = Path.dot ∨ last = Path.dotDot then
        .error .isDirectory
      else
        match d.enter p last with
        | .error t => .error t
        | .ok q => if d.node? q = some .directory then .error .isDirectory else .ok q

def write (d : Disk) (path content : Bytes) : Except Problem Disk :=
  match d.target path with
  | .ok p => .ok (d.put p (.file content))
  | .error t => .error (t.opening path)

def after (d : Disk) (written : List (Bytes × Bytes)) : Disk :=
  written.foldr (fun (path, content) d => (d.write path content).toOption.getD d) d

def system (d : Disk) : FileSystem where
  onRead written path := (d.after written).read path
  onWrite written path content := ((d.after written).write path content).map fun _ => ()
  onCheckFile written path := (d.after written).checkFile path
  onCheckDirectory written path := (d.after written).checkDirectory path

def makeDirectories (d : Disk) (p : Place) : List Bytes → Disk
  | [] => d
  | name :: names =>
    let q := p.child name
    match d.node? q with
    | some _ => d.makeDirectories q names
    | none => (d.put q .directory).makeDirectories q names

def names (path : Bytes) : List Bytes := (Path.parts path).filter fun n => n ≠ [] ∧ n ≠ Path.dot

def withDirectory (d : Disk) (path : Bytes) : Disk := d.makeDirectories .here (names path)

def withFile (d : Disk) (path content : Bytes) : Disk :=
  (d.makeDirectories .here (names path).dropLast).put ⟨.above 0, names path⟩ (.file content)

def listed? : Place × Node → Option (Bytes × Bytes)
  | (⟨.above 0, names⟩, .file content) => some (Bytes.join [Path.slash] names, content)
  | _ => none

def files (d : Disk) : List (Bytes × Bytes) := d.nodes.filterMap listed?

end Disk

end TildeText
