import TildeText.Bytes.Digest
import TildeText.Problem

/-!
The macro table. Names are spread over buckets by their digest, and each bucket is a chain of
entries, the newest first, so the order of a listing is fixed by the history of the table.

An operation on an entry may go on while other text deletes that entry. Entries therefore carry
the number under which they were made; a deleted one is retired, not forgotten, and whoever still
holds its handle finishes on it without touching a newer entry of the same name.
-/

namespace TildeText

/-- A value is changed in place: what a shorter value leaves of a longer one stays behind it. -/
structure Entry where
  name : Bytes
  value : Bytes
  serial : Nat
  spare : Bytes := []
  deriving DecidableEq

structure Handle where
  name : Bytes
  serial : Nat
  deriving DecidableEq

abbrev Chain := List Entry

namespace Entry

def handle (e : Entry) : Handle := ⟨e.name, e.serial⟩

def line (e : Entry) : Bytes :=
  e.name ++ (if e.value.isEmpty then [] else 0x7e :: e.value) ++ [0x0a]

def stored (e : Entry) : Bytes := e.value ++ e.spare

def put (e : Entry) (value : Bytes) : Entry :=
  { e with value, spare := e.stored.drop value.length }

def setValue (h : Handle) (value : Bytes) (e : Entry) : Entry :=
  if e.handle = h then e.put value else e

end Entry

/-- The number of buckets is a power of two. -/
structure Table where
  bits : Nat
  chains : Vector Chain (Nat.pow 2 bits)
  made : Nat := 0
  retired : List Entry := []

namespace Table

def empty (bits : Nat) : Table := { bits, chains := Vector.replicate (Nat.pow 2 bits) [] }

def bucketBits? (count : Int) : Option Nat :=
  if 0 < count ∧ Nat.pow 2 count.toNat.log2 = count.toNat then some count.toNat.log2 else none

def bucket (t : Table) (name : Bytes) : Fin (Nat.pow 2 t.bits) :=
  ⟨(Bytes.digest name).toNat % Nat.pow 2 t.bits, Nat.mod_lt _ (Nat.two_pow_pos _)⟩

def chain (t : Table) (name : Bytes) : Chain := t.chains[t.bucket name]

def setChain (t : Table) (name : Bytes) (c : Chain) : Table :=
  { t with chains := t.chains.set (t.bucket name) c }

def find? (t : Table) (name : Bytes) : Option Entry := (t.chain name).find? (·.name == name)

def entries (t : Table) : List Entry := t.chains.toList.flatten

def link (t : Table) (name value : Bytes) : Table :=
  let e : Entry := { name, value, serial := t.made }
  { t.setChain name (e :: t.chain name) with made := t.made + 1 }

/-- The entry that a handle stands for, also after it has been deleted. -/
def entryAt? (t : Table) (h : Handle) : Option Entry :=
  ((t.chain h.name).find? (·.handle == h)).or (t.retired.find? (·.handle == h))

def value (t : Table) (h : Handle) : Bytes := (t.entryAt? h).elim [] Entry.value

def stored (t : Table) (h : Handle) : Bytes := (t.entryAt? h).elim [] Entry.stored

def setValue (t : Table) (h : Handle) (value : Bytes) : Table :=
  { t.setChain h.name ((t.chain h.name).map (Entry.setValue h value)) with
    retired := t.retired.map (Entry.setValue h value) }

def install (t : Table) (name value : Bytes) : Table :=
  match t.find? name with
  | some e => t.setValue e.handle value
  | none => t.link name value

def obtain (t : Table) (name : Bytes) : Handle × Table :=
  match t.find? name with
  | some e => (e.handle, t)
  | none => (⟨name, t.made⟩, t.link name [])

def delete (t : Table) (name : Bytes) : Bool × Table :=
  match t.find? name with
  | some e =>
    (true,
      { t.setChain name ((t.chain name).eraseP (·.name == name)) with retired := e :: t.retired })
  | none => (false, t)

end Table

end TildeText
