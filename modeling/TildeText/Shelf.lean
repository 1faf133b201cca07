import TildeText.Buffer

namespace TildeText

structure Shelf where
  buffers : List (Bytes × Buffer) := []

/-- A change to the buffer `r`. Where a change reads another buffer, that is the buffer `o`; where
it makes a new one, the new one is put at `dest`. A buffer that comes from outside is a new one as
well: it has not been asked for its digest yet. -/
inductive Shelf.Change
  | put (r : Bytes) (t : Buffer) (new : t.digest = none := by rfl)
  | setName (r name : Bytes)
  | append (r s : Bytes)
  | appendRepeat (r : Bytes) (b : UInt8) (count : Int)
  | appendBuffer (r o : Bytes)
  | appendDecimal (r : Bytes) (n : Int64)
  | appendScalar (r : Bytes) (code : Int)
  | appendTrimmed (r o : Bytes)
  | cutAt (r : Bytes) (i : Int) (dest : Option Bytes)
  | truncate (r : Bytes) (n : Int)
  | clear (r : Bytes)
  | set (r o : Bytes)
  | clone (r dest : Bytes)
  | slice (r : Bytes) (start stop : Int)
  | substring (r : Bytes) (start count : Int) (dest : Bytes)
  | hash (r : Bytes)

namespace Shelf

def get? (s : Shelf) (label : Bytes) : Option Buffer := s.buffers.lookup label

def get (s : Shelf) (label : Bytes) : Buffer := (s.get? label).getD Buffer.empty

def remove (s : Shelf) (label : Bytes) : Shelf := ⟨s.buffers.filter (·.1 != label)⟩

def put (s : Shelf) (label : Bytes) (t : Buffer) : Shelf := ⟨(label, t) :: (s.remove label).buffers⟩

def putOption (s : Shelf) (label : Bytes) : Option Buffer → Shelf
  | some t => s.put label t
  | none => s.remove label

def modify (s : Shelf) (label : Bytes) (f : Buffer → Buffer) : Shelf := s.put label (f (s.get label))

/-- Setting empties the buffer before it reads the other one, so a buffer set to itself ends up
empty. -/
def apply (s : Shelf) : Change → Shelf
  | .put r t _ => s.put r t
  | .setName r name => s.modify r (·.setName name)
  | .append r text => s.modify r (·.append text)
  | .appendRepeat r b count => s.modify r (·.appendRepeat b count)
  | .appendBuffer r o => s.modify r (·.append (s.get o).bytes)
  | .appendDecimal r n => s.modify r (·.appendDecimal n)
  | .appendScalar r code => s.modify r (·.appendScalar code)
  | .appendTrimmed r o => s.modify r (·.appendTrimmed (s.get o).bytes)
  | .cutAt r i none => s.modify r (·.cutAt i |>.1)
  | .cutAt r i (some dest) => (s.modify r (·.cutAt i |>.1)).put dest ((s.get r).cutAt i).2
  | .truncate r n => s.modify r (·.truncate n)
  | .clear r => s.modify r Buffer.clear
  | .set r o =>
    let wiped := s.modify r Buffer.wipe
    wiped.modify r (·.append (wiped.get o).bytes)
  | .clone r dest => s.putOption dest ((s.get? r).map Buffer.clone)
  | .slice r start stop => s.modify r (·.slice start stop)
  | .substring r start count dest => s.putOption dest ((s.get r).substring? start count)
  | .hash r => if (s.get? r).isSome then s.modify r Buffer.hashed else s

def applyAll (s : Shelf) (changes : List Change) : Shelf := changes.foldl apply s

end Shelf

end TildeText
