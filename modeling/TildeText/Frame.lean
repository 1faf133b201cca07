import TildeText.Bytes.Number
import TildeText.Layout
import TildeText.Position

namespace TildeText

structure Slot where
  text : Option Bytes := none
  value : Option Bytes := none
  deriving DecidableEq

structure Frame where
  slots : List Slot := []
  origin : Option Origin := none
  deriving DecidableEq

def argumentLimit : Nat := 65536

namespace Frame

def empty : Frame := {}

def size (f : Frame) : Nat := f.slots.length

def ofValues (values : List Bytes) : Frame := { slots := values.map fun v => { value := some v } }

def ofTexts (texts : List Bytes) (origin : Option Origin := none) : Frame :=
  { slots := texts.map fun t => { text := some t }, origin }

def raw (f : Frame) (n : Nat) : Option Bytes := f.slots[n]?.bind Slot.text

def remember (f : Frame) (n : Nat) (value : Bytes) : Frame :=
  { f with slots := f.slots.modify n fun s => { s with value := some value } }

def forget (f : Frame) (n : Nat) : Frame :=
  { f with slots := f.slots.modify n fun s => { s with value := none } }

/-- Gives an argument a value, or nothing, in place of its raw text. Empty arguments are added as
far as the number asks for them. -/
def rebind (f : Frame) (n : Nat) (value : Option Bytes) : Frame :=
  { f with slots := (f.slots ++ List.replicate (n + 1 - f.size) ({} : Slot)).set n { value } }

theorem getElem?_rebind (f : Frame) (n : Nat) (value : Option Bytes) (i : Nat) :
    (f.rebind n value).slots[i]? =
      if i = n then some { value } else if i < f.size then f.slots[i]?
      else if i < n then some {} else none := by
  have hlen : n < (f.slots ++ List.replicate (n + 1 - f.size) ({} : Slot)).length := by
    simp only [List.length_append, List.length_replicate, size]
    omega
  rw [rebind, List.getElem?_set]
  split
  · rename_i hi
    rw [if_pos hi.symm]
  · rename_i hi
    rw [if_neg (Ne.symm hi), List.getElem?_append, List.getElem?_replicate, size]
    split
    · rfl
    · rename_i hge
      have hadded : i - f.slots.length < n + 1 - f.slots.length ↔ i < n := by omega
      simp only [hadded]

def assign (f : Frame) (n : Int) (value : Bytes) : Frame :=
  if 0 ≤ n ∧ n ≤ argumentLimit then f.rebind n.toNat (some value) else f

def describe (f : Frame) : Bytes :=
  (f.origin.map Origin.describe).getD [] ++
    match f.raw 0 with
    | some name => if name.isEmpty then [] else utf8 "<~" ++ name ++ utf8 "~> "
    | none => []

def listing (f : Frame) : Bytes :=
  Bytes.join (utf8 "~") (f.slots.map fun s => (s.text.or s.value).getD []) ++ utf8 "\n"

end Frame

def Call.frame (c : Call) (src : Source) : Frame := .ofTexts c.args (some ⟨src, c.offset⟩)

def Opened.frame (o : Opened) (src : Source) : Frame := .ofTexts o.args (some ⟨src, o.offset⟩)

/-- The argument number that digits write after `n`. It stops at the first number beyond the limit:
all numbers there are taken as one. -/
def Bytes.argumentNumber (n : Int64) : Bytes → Int64
  | [] => n
  | b :: rest =>
    let n := n * 10 + digitWord b
    if n > Int64.ofNat argumentLimit then Int64.ofNat (argumentLimit + 1) else argumentNumber n rest

def Call.index? (c : Call) : Option Nat :=
  match c.args with
  | [] => none
  | name :: _ =>
    if Bytes.allDigits name then some (Bytes.argumentNumber 0 name).toNatClampNeg else none

structure Scope where
  frame : Frame
  outer : List Frame := []
  deriving DecidableEq

namespace Scope

def push (s : Scope) (f : Frame) : Scope := ⟨f, s.frame :: s.outer⟩

def around (s : Scope) : Scope :=
  match s.outer with
  | [] => ⟨Frame.empty, []⟩
  | f :: rest => ⟨f, rest⟩

/-- A frame put back into the scope around it, after something was evaluated there. What happened
around an outermost frame is lost. -/
def within (s : Scope) (f : Frame) (around : Scope) : Scope :=
  match s.outer with
  | [] => ⟨f, []⟩
  | _ :: _ => around.push f

def trace (s : Scope) : Bytes := (s.outer.reverse ++ [s.frame]).flatMap Frame.describe

end Scope

end TildeText
