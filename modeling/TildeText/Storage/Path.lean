import TildeText.Bytes

namespace TildeText.Path

def slash : UInt8 := 0x2f

def dot : Bytes := utf8 "."

def dotDot : Bytes := utf8 ".."

def parts (path : Bytes) : List Bytes := Bytes.pieces slash path

def isRooted (path : Bytes) : Bool := path.head? == some slash

/-- One more part on a stack of parts. `..` takes back the part before it, or is kept if there is
none to take back and the path does not start at the root. -/
def push (rooted : Bool) (stack : List Bytes) (part : Bytes) : List Bytes :=
  if part = [] ∨ part = dot then stack
  else if part = dotDot then
    match stack with
    | [] => if rooted then [] else [dotDot]
    | top :: rest => if top = dotDot then dotDot :: top :: rest else rest
  else part :: stack

def clean (path : Bytes) : Bytes :=
  let rooted := isRooted path
  let body := Bytes.join [slash] ((parts path).foldl (push rooted) []).reverse
  if rooted then slash :: body else if body.isEmpty then dot else body

/-- The path of a name in a directory. Without a directory it is the name itself. -/
def join (directory name : Bytes) : Bytes :=
  if directory = [] then (if name = [] then [] else clean name)
  else clean (directory ++ [slash] ++ name)

def stripSlashes (path : Bytes) : Bytes := (path.reverse.dropWhile (· == slash)).reverse

def base (path : Bytes) : Bytes :=
  if (stripSlashes path).isEmpty then path.take 1
  else ((parts (stripSlashes path)).getLast?).getD []

end TildeText.Path
