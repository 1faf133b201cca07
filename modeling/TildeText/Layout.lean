import TildeText.Token

/-!
The layout of a text: what is copied as it stands, and which invocations are made, in order. The
layout depends on the text alone, so a text can be laid out before anything in it is evaluated.

An invocation opens with a fence of some width. Inside it, outside further invocations, a run of at
least that many tildes ends the argument before it; each further full width in the run is an empty
argument, and what is left over belongs to the next argument. A run before `>` closes the
invocation, and then nothing may be left over.
-/

namespace TildeText

/-- An invocation: the number of bytes up to and with its opening fence, the width of the fence, and
the raw texts of its arguments, of which the first is the name. -/
structure Call where
  offset : Nat
  width : Nat
  args : List Bytes
  deriving DecidableEq

def Call.render (c : Call) : Bytes :=
  let fence := List.replicate c.width Token.tilde
  Token.lt :: fence ++ Bytes.join fence c.args ++ fence ++ [Token.gt]

/-- An invocation that is still open: the arguments that have ended and the tokens since then, both
with the latest first, and how many invocations are open inside it. -/
structure Opened where
  offset : Nat
  width : Nat
  ended : List Bytes := []
  pending : List Token := []
  inner : Nat := 0
  deriving DecidableEq

namespace Opened

def args (o : Opened) : List Bytes := o.ended.reverse

def keep (o : Opened) (t : Token) : Opened := { o with pending := t :: o.pending }

def pendingText (o : Opened) : Bytes := Token.spellAll o.pending.reverse

def call (o : Opened) : Call := ⟨o.offset, o.width, o.args⟩

def split (o : Opened) (n : Nat) : Opened :=
  if n < o.width then o.keep (.run n false)
  else
    { o with
      ended := List.replicate (n / o.width - 1) [] ++ o.pendingText :: o.ended
      pending := if n % o.width = 0 then [] else [.run (n % o.width) false] }

inductive Next
  | opened (o : Opened)
  | closed (c : Call)
  | short (o : Opened)

def feed (o : Opened) : Token → Next
  | .byte b => .opened (o.keep (.byte b))
  | .fence 0 => .opened (o.keep (.fence 0))
  | .fence (n + 1) => .opened { o.keep (.fence (n + 1)) with inner := o.inner + 1 }
  | .run n closes =>
    match o.inner with
    | 0 =>
      if !closes then .opened (o.split n)
      else if n % o.width = 0 then .closed (o.split n).call
      else .short (o.split n)
    | k + 1 => .opened { o.keep (.run n closes) with inner := if closes then k else k + 1 }

end Opened

inductive Defect
  | shortClose (o : Opened)
  | extraClose (offset : Nat)
  | missingClose (o : Opened)
  deriving DecidableEq

inductive Segment
  | literal (t : Token)
  | call (c : Call)
  deriving DecidableEq

def Segment.render : Segment → Bytes
  | .literal t => t.spell
  | .call c => c.render

structure Layout where
  segments : List Segment
  defect : Option Defect

namespace Layout

inductive Phase
  | outside
  | inside (o : Opened)
  | broken (d : Defect)

/-- The layout so far: the segments with the latest first, and how many bytes they cover together
with the invocation that is open. -/
structure Scan where
  segments : List Segment := []
  offset : Nat := 0
  phase : Phase := .outside

namespace Scan

def literal (s : Scan) (t : Token) (offset : Nat) : Scan :=
  ⟨.literal t :: s.segments, offset, .outside⟩

def step (s : Scan) (t : Token) : Scan :=
  let offset := s.offset + t.size
  match s.phase with
  | .outside =>
    match t with
    | .fence (n + 1) => ⟨s.segments, offset, .inside { offset, width := n + 1 }⟩
    | .run n true => ⟨.literal (.run n false) :: s.segments, offset, .broken (.extraClose offset)⟩
    | t => s.literal t offset
  | .inside o =>
    match o.feed t with
    | .opened o => ⟨s.segments, offset, .inside o⟩
    | .closed c => ⟨.call c :: s.segments, offset, .outside⟩
    | .short o => ⟨s.segments, offset, .broken (.shortClose o)⟩
  | .broken _ => s

def finish (s : Scan) : Layout :=
  ⟨s.segments.reverse,
    match s.phase with
    | .outside => none
    | .inside o => some (.missingClose o)
    | .broken d => some d⟩

end Scan

end Layout

def Bytes.layout (s : Bytes) : Layout := (s.tokens.foldl Layout.Scan.step {}).finish

end TildeText
