import TildeText.Bytes

namespace TildeText.Bytes

def window : Nat := 4096

def stripReturn (s : Bytes) : Bytes := if s.getLast? == some 0x0d then s.dropLast else s

theorem length_le_stripReturn (s : Bytes) : s.length ≤ (stripReturn s).length + 1 := by
  unfold stripReturn
  split
  · rw [List.length_dropLast]
    omega
  · exact Nat.le_succ _

structure Reading where
  text : Bytes
  whole : Bool

/-- The first reading of a text and what is left after it. A carriage return at the end of a part is
left, because a newline may follow it. -/
def readLine (s : Bytes) : Reading × Bytes :=
  let line := s.takeWhile (· ≠ 0x0a)
  if line.length < window then
    match s.drop line.length with
    | [] => (⟨line, true⟩, [])
    | _ :: rest => (⟨stripReturn line, true⟩, rest)
  else
    let part := stripReturn (line.take window)
    (⟨part, false⟩, s.drop part.length)

theorem readLine_rest_lt {s : Bytes} (h : s ≠ []) : (readLine s).2.length < s.length := by
  have pos : 0 < s.length := List.length_pos_iff.mpr h
  simp only [readLine]
  split
  · split
    · exact pos
    · rename_i eq
      have := congrArg List.length eq
      simp only [List.length_drop, List.length_cons] at *
      omega
  · have := length_le_stripReturn ((s.takeWhile (· ≠ 0x0a)).take window)
    simp only [List.length_take, List.length_drop, window] at *
    omega

def readings (s : Bytes) : List Reading :=
  if h : s = [] then []
  else
    have := readLine_rest_lt h
    (readLine s).1 :: readings (readLine s).2
termination_by s.length

def lines (s : Bytes) : List Bytes := (readings s).map Reading.text

end TildeText.Bytes
