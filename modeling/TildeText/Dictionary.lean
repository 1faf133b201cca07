import TildeText.Storage
import TildeText.Storage.Path
import TildeText.Table

namespace TildeText

structure Library where
  directories : List Bytes := []
  suffixes : List Bytes := [[]]

structure Dictionary where
  table : Table := Table.empty 10
  library : Library := {}

namespace Library

def admits (name : Bytes) : Bool :=
  !name.isEmpty && name != Path.dot && name != Path.dotDot &&
    name.all fun b => b != Path.slash && b != 0x5c

def paths (l : Library) (name : Bytes) : List Bytes :=
  if admits name then
    l.directories.flatMap fun d => l.suffixes.map fun s => Path.join d (name ++ s)
  else
    []

end Library

inductive Setting
  | buckets (count : Int)
  | directories (paths : List Bytes)
  | suffix (s : Bytes)

namespace Dictionary

/-- Directories are added all together or not at all. -/
def addDirectories (d : Dictionary) (system : FileSystem) (paths : List Bytes) :
    Except Problem Dictionary :=
  if paths.isEmpty then .error .noDirectory
  else do
    paths.forM system.checkDirectory
    return { d with library.directories := d.library.directories ++ paths }

def setBuckets (d : Dictionary) (count : Int) : Except Problem Dictionary :=
  match Table.bucketBits? count with
  | some bits => .ok { d with table := { Table.empty bits with made := d.table.made } }
  | none => .error (.bucketCount count)

def addSuffix (d : Dictionary) (s : Bytes) : Dictionary :=
  { d with library.suffixes := d.library.suffixes ++ [s] }

def set (d : Dictionary) (system : FileSystem) : Setting → Except Problem Dictionary
  | .buckets count => d.setBuckets count
  | .directories paths => d.addDirectories system paths
  | .suffix s => .ok (d.addSuffix s)

/-- Applies settings in order. The ones before a setting that fails stay applied. -/
def configure (d : Dictionary) (system : FileSystem) : List Setting → Dictionary × Option Problem
  | [] => (d, none)
  | s :: rest =>
    match d.set system s with
    | .ok d => d.configure system rest
    | .error e => (d, some e)

def ofSettings (system : FileSystem) (settings : List Setting) : Except Problem Dictionary :=
  match configure {} system settings with
  | (d, none) => .ok d
  | (_, some e) => .error e

/-- The entry of a name, from the table or else from the first library file that can be read. -/
def find (d : Dictionary) (system : FileSystem) (name : Bytes) :
    Except Problem (Entry × Dictionary) :=
  match d.table.find? name with
  | some e => .ok (e, d)
  | none =>
    match (d.library.paths name).findSome? system.content? with
    | some content =>
      .ok ({ name, value := content, serial := d.table.made },
        { d with table := d.table.link name content })
    | none => .error (.notFound name d.library.directories)

end Dictionary

end TildeText
