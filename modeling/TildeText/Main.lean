import TildeText.Console.CommandLine
import TildeText.Storage.Disk

namespace TildeText.Main

partial def readAll (stream : IO.FS.Stream) (sofar : ByteArray) : IO ByteArray := do
  let chunk ← stream.read 65536
  if chunk.isEmpty then return sofar else readAll stream (sofar ++ chunk)

/-- Adds what a directory holds to a disk. What cannot be read is left out. -/
partial def loadEntries (entries : Array IO.FS.DirEntry) (p : Place) (d : Disk) : IO Disk :=
  entries.foldlM
    (fun d e => do
      let q := p.child (utf8 e.fileName)
      try
        if ← e.path.isDir then
          loadEntries (← e.path.readDir) q ⟨(q, .directory) :: d.nodes⟩
        else
          return ⟨(q, .file (← IO.FS.readBinFile e.path).data.toList) :: d.nodes⟩
      catch _ => return d)
    d

def saveChanges (before after : Disk) : IO Unit :=
  after.files.forM fun (path, content) => do
    if (before.read path).toOption != some content then
      match String.fromUTF8? ⟨path.toArray⟩ with
      | some name => IO.FS.writeBinFile name ⟨content.toArray⟩
      | none => return ()

def run (args : List String) : IO UInt32 := do
  let disk ← loadEntries (← (← IO.currentDir).readDir) .here {}
  let input ← readAll (← IO.getStdin) .empty
  let report := (Console.Session.start disk.system (.text input.data.toList)).toOption.bind fun s =>
    (s.run (utf8 "tilton" :: args.map utf8)).report?
  match report with
  | some r =>
    saveChanges disk (disk.after r.session.system.written)
    (← IO.getStdout).write ⟨r.session.said.toArray⟩
    (← IO.getStderr).write ⟨r.session.complained.toArray⟩
    return r.status.toUInt32
  | none => return 2

end TildeText.Main

def main (args : List String) : IO UInt32 := TildeText.Main.run args
