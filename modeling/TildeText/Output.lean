import TildeText.Problem

namespace TildeText

structure Output where
  backwards : Bytes := []
  deriving DecidableEq

namespace Output

def toBytes (o : Output) : Bytes := o.backwards.reverse

def ofBytes (s : Bytes) : Output := ⟨s.reverse⟩

def write (o : Output) (s : Bytes) : Output := ⟨s.reverseAux o.backwards⟩

@[simp] theorem toBytes_write (o : Output) (s : Bytes) : (o.write s).toBytes = o.toBytes ++ s := by
  simp [write, toBytes, List.reverseAux_eq]

theorem write_write (o : Output) (s t : Bytes) : (o.write s).write t = o.write (s ++ t) := by
  simp [write, List.reverseAux_eq]

end Output

/-- What has been reported, the latest report first. A report is written record by record. -/
structure Reports where
  backwards : List (List Bytes) := []
  deriving DecidableEq

namespace Reports

def add (r : Reports) (records : List Bytes) : Reports := ⟨records :: r.backwards⟩

def toBytes (r : Reports) : Bytes := r.backwards.reverse.flatten.flatten

end Reports

/-- A writer, which may refuse a record. Whether it does is determined by what it was asked to write
before, the latest first. -/
structure Writer where
  written : Reports := {}
  asked : List Bytes := []
  refusal : List Bytes → Bytes → Option Problem := fun _ _ => none

namespace Writer

def offer (refusal : List Bytes → Bytes → Option Problem) (asked : List Bytes) :
    List Bytes → List Bytes × Except Problem Unit
  | [] => ([], .ok ())
  | record :: rest =>
    match refusal asked record with
    | some p => ([], .error p)
    | none =>
      let (taken, result) := offer refusal (record :: asked) rest
      (record :: taken, result)

def write (w : Writer) (records : List Bytes) : Except Problem Unit × Writer :=
  let (taken, result) := offer w.refusal w.asked records
  (result,
    { w with
      written := w.written.add taken
      asked := (records.take (taken.length + 1)).reverse ++ w.asked })

end Writer

end TildeText
