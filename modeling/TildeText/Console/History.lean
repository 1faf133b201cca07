import TildeText.Bytes.Lines
import TildeText.Bytes.Scalar

namespace TildeText.Console

/-- A line editor with the history that it keeps, oldest entry first. How it reads lines from an
input that is no terminal, what it writes for a prompt and what it makes of its history is its own
affair. -/
structure LineEditor where
  history : List Bytes := []
  lines : Bytes → List Bytes
  echo : Bytes → List Bytes
  onAdd : List Bytes → Bytes → List Bytes
  onLoad : List Bytes → Bytes → List Bytes
  onSave : List Bytes → Bytes

namespace LineEditor

def add (e : LineEditor) (entry : Bytes) : LineEditor :=
  { e with history := e.onAdd e.history entry }

def load (e : LineEditor) (content : Option Bytes) : LineEditor :=
  { e with history := content.elim [] (e.onLoad []) }

def save (e : LineEditor) : Bytes := e.onSave e.history

def historyLimit : Nat := 1000

def latest (history : List Bytes) : List Bytes := history.drop (history.length - historyLimit)

/-- An editor that does not add an entry equal to the one before it, keeps only so many of the
latest entries, and loads them up to the first line that is too long or not valid UTF-8. -/
def plain : LineEditor where
  lines := Bytes.lines
  echo prompt := [prompt]
  onAdd history entry :=
    if history.getLast? = some entry then history else latest (history ++ [entry])
  onLoad history content :=
    let good := (Bytes.readings content).takeWhile fun r => r.whole && Bytes.isUtf8 r.text
    latest (history ++ good.map Bytes.Reading.text)
  onSave history := history.flatMap (· ++ [0x0a])

end LineEditor

end TildeText.Console
