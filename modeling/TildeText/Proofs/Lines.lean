import TildeText.Position
import TildeText.Proofs.Heredity

namespace TildeText

namespace Bytes

def endsLineAt (s : Bytes) (i : Nat) : Bool :=
  s[i]? == some 0x0a || (s[i]? == some 0x0d && s[i + 1]? != some 0x0a)

/-- The line ends among the first `i` bytes. -/
def lineEnds (s : Bytes) (i : Nat) : List Nat := (List.range i).filter s.endsLineAt

/-- How many of the first `i` bytes stand after the last line end among them. -/
def sinceLineEnd (s : Bytes) (i : Nat) : Nat := i - (s.lineEnds i).getLast?.elim 0 (· + 1)

variable {s : Bytes} {i : Nat}

theorem lineEnds_succ_of_ends (h : s.endsLineAt i = true) :
    s.lineEnds (i + 1) = s.lineEnds i ++ [i] := by
  simp [lineEnds, List.range_succ, h]

theorem lineEnds_succ_of_not_ends (h : s.endsLineAt i = false) :
    s.lineEnds (i + 1) = s.lineEnds i := by
  simp [lineEnds, List.range_succ, h]

theorem sinceLineEnd_succ_of_ends (h : s.endsLineAt i = true) : s.sinceLineEnd (i + 1) = 0 := by
  simp [sinceLineEnd, lineEnds_succ_of_ends h]

theorem sinceLineEnd_succ_of_not_ends (h : s.endsLineAt i = false) :
    s.sinceLineEnd (i + 1) = s.sinceLineEnd i + 1 := by
  rw [sinceLineEnd, sinceLineEnd, lineEnds_succ_of_not_ends h]
  cases hlast : (s.lineEnds i).getLast? with
  | none => rfl
  | some j =>
    -- the last line end is one of the first `i` bytes, so the subtraction is not cut off
    have hj : j < i := by
      have hmem := List.mem_of_getLast? hlast
      exact List.mem_range.1 (List.mem_of_mem_filter hmem)
    simp only [Option.elim_some]
    omega

theorem endsLine_eq {b : UInt8} {rest : Bytes} (h : s.drop i = b :: rest) :
    Cursor.endsLine b rest = s.endsLineAt i := by
  have hb : s[i]? = some b := by
    rw [← Nat.add_zero i, ← List.getElem?_drop, h]
    rfl
  have hrest : s[i + 1]? = rest.head? := by
    rw [← List.getElem?_drop, h, List.getElem?_cons_succ, List.head?_eq_getElem?]
  simp [Cursor.endsLine, endsLineAt, hb, hrest]

theorem drop_succ_of_cons {b : UInt8} {rest : Bytes} (h : s.drop i = b :: rest) :
    s.drop (i + 1) = rest ∧ i < s.length := by
  refine ⟨?_, ?_⟩
  · rw [← List.drop_drop, h, List.drop_one, List.tail_cons]
  · refine Nat.lt_of_not_le fun hle => ?_
    rw [List.drop_eq_nil_of_le hle] at h
    cases h

end Bytes

namespace Cursor

def told (s : Bytes) (i : Nat) : Cursor := ⟨i, 1 + (s.lineEnds i).length, s.sinceLineEnd i⟩

variable {s : Bytes} {i : Nat}

theorem told_zero (s : Bytes) : told s 0 = {} := rfl

theorem next_told {b : UInt8} {rest : Bytes} (h : s.drop i = b :: rest) :
    (told s i).next b rest = told s (i + 1) := by
  rw [next, Bytes.endsLine_eq h]
  cases he : s.endsLineAt i with
  | true =>
    simp [told, Bytes.lineEnds_succ_of_ends he, Bytes.sinceLineEnd_succ_of_ends he, Nat.add_assoc]
  | false =>
    simp [told, Bytes.lineEnds_succ_of_not_ends he, Bytes.sinceLineEnd_succ_of_not_ends he]

theorem advance_told (n : Nat) (h : i + n ≤ s.length) :
    (told s i).advance n (s.drop i) = told s (i + n) := by
  induction n generalizing i with
  | zero => rfl
  | succ n ih =>
    cases hd : s.drop i with
    | nil =>
      have hle := List.drop_eq_nil_iff.1 hd
      omega
    | cons b rest =>
      obtain ⟨hrest, -⟩ := Bytes.drop_succ_of_cons hd
      rw [advance, next_told hd, ← hrest, ih (by omega), Nat.add_right_comm, Nat.add_assoc]

theorem after_eq_told (h : i ≤ s.length) : after s i = told s i := by
  have hadvance := advance_told (s := s) (i := 0) i (by simpa using h)
  simpa [after, told_zero] using hadvance

end Cursor

/-- A cursor in a text, with what is still ahead of it. -/
structure Reader where
  cursor : Cursor := {}
  rest : Bytes
  deriving DecidableEq

namespace Reader

def start (s : Bytes) : Reader := { rest := s }

def next (r : Reader) : Reader :=
  match r.rest with
  | [] => r
  | b :: rest => ⟨r.cursor.next b rest, rest⟩

def tildesFrom (c : Cursor) : Bytes → Reader
  | [] => ⟨c, []⟩
  | b :: rest => if b = Token.tilde then tildesFrom (c.next b rest) rest else ⟨c, b :: rest⟩

def tildes (r : Reader) : Reader := tildesFrom r.cursor r.rest

inductive Move
  | next
  | tildes

def move (r : Reader) : Move → Reader
  | .next => r.next
  | .tildes => r.tildes

def run (r : Reader) (moves : List Move) : Reader := moves.foldl move r

@[simp] theorem run_nil (r : Reader) : r.run [] = r := rfl

@[simp] theorem run_cons (r : Reader) (a : Move) (moves : List Move) :
    r.run (a :: moves) = (r.move a).run moves := rfl

theorem run_append (r : Reader) (moves moves' : List Move) :
    r.run (moves ++ moves') = (r.run moves).run moves' := List.foldl_append

def In (s : Bytes) (r : Reader) : Prop := ∃ i ≤ s.length, r = ⟨.told s i, s.drop i⟩

variable {s : Bytes} {r : Reader}

theorem in_start (s : Bytes) : (start s).In s := ⟨0, Nat.zero_le _, rfl⟩

theorem In.next (h : r.In s) : r.next.In s := by
  obtain ⟨i, hi, rfl⟩ := h
  rw [Reader.next]
  cases hd : s.drop i with
  | nil => exact ⟨i, hi, by rw [hd]⟩
  | cons b rest =>
    obtain ⟨hrest, hlt⟩ := Bytes.drop_succ_of_cons hd
    exact ⟨i + 1, hlt, by rw [← Cursor.next_told hd, hrest]⟩

theorem in_tildesFrom {rest : Bytes} {c : Cursor} (h : In s ⟨c, rest⟩) :
    (tildesFrom c rest).In s := by
  induction rest generalizing c with
  | nil => exact h
  | cons b rest ih =>
    rw [tildesFrom]
    split
    · exact ih h.next
    · exact h

theorem In.move (h : r.In s) (a : Move) : (r.move a).In s := by
  cases a with
  | next => exact h.next
  | tildes => exact in_tildesFrom h

theorem In.run (h : r.In s) (moves : List Move) : (r.run moves).In s := by
  induction moves generalizing r with
  | nil => exact h
  | cons a moves ih => exact ih (h.move a)

theorem In.eq_of_rest {before after : Bytes} (h : r.In (before ++ after)) (hr : r.rest = after) :
    r = ⟨.after (before ++ after) before.length, after⟩ := by
  obtain ⟨i, hi, rfl⟩ := h
  have hlen := congrArg List.length hr
  simp only [List.length_drop, List.length_append] at hlen hi
  obtain rfl : i = before.length := by omega
  rw [Cursor.after_eq_told (by simp), List.drop_left]

end Reader

/-- The steps in which a scan takes a token. -/
def Token.moves : Token → List Reader.Move
  | .fence _ => [.next, .tildes]
  | .run _ closes => [.next, .tildes] ++ if closes then [.next] else []
  | .byte _ => [.next]

theorem Token.Lexed.head?_ne_tilde {ts : List Token} (h : Lexed ts)
    (hts : ∀ u ∈ ts.head?, ∀ n closes, u ≠ .run n closes) :
    (spellAll ts).head? ≠ some tilde := by
  cases ts with
  | nil => simp
  | cons u ts =>
    cases u with
    | fence n => simp [spell, lt, tilde]
    | run n closes => exact absurd rfl (hts _ rfl n closes)
    | byte b => simpa [spell] using h.head.2

namespace Reader

variable {r : Reader} {ts us : List Token}

theorem rest_tildesFrom (n : Nat) {s : Bytes} (hs : s.head? ≠ some Token.tilde) (c : Cursor) :
    (tildesFrom c (List.replicate n Token.tilde ++ s)).rest = s := by
  induction n generalizing c with
  | zero =>
    cases s with
    | nil => rfl
    | cons b s =>
      have hb : b ≠ Token.tilde := by simpa using hs
      simp [tildesFrom, hb]
  | succ n ih =>
    rw [List.replicate_succ, List.cons_append, tildesFrom, if_pos rfl]
    exact ih _

theorem rest_next_tildes {b : UInt8} {n : Nat} {s : Bytes}
    (hr : r.rest = b :: (List.replicate n Token.tilde ++ s)) (hs : s.head? ≠ some Token.tilde) :
    (r.run [.next, .tildes]).rest = s := by
  simp only [run_cons, run_nil, move, tildes, next, hr]
  exact rest_tildesFrom n hs _

theorem rest_next {b : UInt8} {s : Bytes} (hr : r.rest = b :: s) : r.next.rest = s := by
  rw [next, hr]

theorem rest_moves {t : Token} (h : Token.Lexed (t :: ts))
    (hr : r.rest = Token.spellAll (t :: ts)) : (r.run t.moves).rest = Token.spellAll ts := by
  rw [Token.spellAll_cons] at hr
  cases t with
  | byte b => exact rest_next hr
  | fence n => exact rest_next_tildes hr (h.tail.head?_ne_tilde h.next)
  | run n closes =>
    obtain ⟨n, rfl⟩ : ∃ k, n = k + 1 := Nat.exists_eq_succ_of_ne_zero (Nat.ne_of_gt h.head)
    rw [Token.spell, List.replicate_succ, List.append_assoc, List.cons_append] at hr
    rw [Token.moves, run_append]
    cases closes with
    | true => exact rest_next (rest_next_tildes hr (by simp [Token.gt, Token.tilde]))
    | false =>
      refine rest_next_tildes hr (h.tail.head?_ne_tilde ?_)
      rintro u hu k closes rfl
      cases h.next _ hu

theorem rest_flatMap_moves (h : Token.Lexed (ts ++ us)) (hr : r.rest = Token.spellAll (ts ++ us)) :
    (r.run (ts.flatMap Token.moves)).rest = Token.spellAll us := by
  induction ts generalizing r with
  | nil => exact hr
  | cons t ts ih =>
    rw [List.flatMap_cons, run_append]
    exact ih h.tail (rest_moves h hr)

theorem run_tokens {s : Bytes} (h : s.tokens = ts ++ us) :
    (start s).run (ts.flatMap Token.moves) =
      ⟨.after s (Token.spellAll ts).length, Token.spellAll us⟩ := by
  have hs : s = Token.spellAll ts ++ Token.spellAll us := by
    rw [← s.spellAll_tokens, h]
    exact List.flatMap_append
  have hrest : ((start s).run (ts.flatMap Token.moves)).rest = Token.spellAll us := by
    refine rest_flatMap_moves (h ▸ s.lexed_tokens) ?_
    rw [← h, s.spellAll_tokens]
    rfl
  have hin := (in_start s).run (ts.flatMap Token.moves)
  rw [hs] at hin hrest ⊢
  exact hin.eq_of_rest hrest

end Reader

end TildeText
