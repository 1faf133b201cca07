import TildeText.Builtin.Text
import TildeText.Proofs.Asking
import TildeText.Proofs.Arguments
import TildeText.Proofs.Characters

namespace TildeText.Bytes

def charactersAt (s : Bytes) (chosen : Nat → Bool) : Bytes :=
  ((characters s).zipIdx.filter fun c => chosen c.2).flatMap Prod.fst

def firstPosition (s : Bytes) (start : Int) : Int :=
  if start < 0 then start + characterCount s else start

/-- The characters from a start on, up to a length if one is given. Before the text there is nothing
to start from. -/
def excerpt (s : Bytes) (start : Int) (length : Option Int) : Bytes :=
  let first := firstPosition s start
  if first < 0 then []
  else charactersAt s fun q => first ≤ (q : Int) && length.all fun l => (q : Int) < first + l

section Positions

variable {α : Type}

theorem filter_zipIdx_lt (cs : List α) (k b : Nat) :
    ((cs.zipIdx k).filter fun c => c.2 < b) = (cs.take (b - k)).zipIdx k := by
  induction cs generalizing k with
  | nil => simp
  | cons c cs ih =>
    rw [List.zipIdx_cons, List.filter_cons, ih]
    by_cases hlt : k < b
    · have hsub : b - k = b - (k + 1) + 1 := by omega
      rw [if_pos (decide_eq_true hlt), hsub, List.take_succ_cons, List.zipIdx_cons]
    · have hzero : b - k = 0 ∧ b - (k + 1) = 0 := by omega
      rw [if_neg (by simpa using hlt), hzero.1, hzero.2]
      rfl

theorem filter_zipIdx_le (cs : List α) (k a : Nat) :
    ((cs.zipIdx k).filter fun c => a ≤ c.2).map Prod.fst = cs.drop (a - k) := by
  induction cs generalizing k with
  | nil => simp
  | cons c cs ih =>
    rw [List.zipIdx_cons, List.filter_cons]
    by_cases hle : a ≤ k
    · have hzero : a - k = 0 ∧ a - (k + 1) = 0 := by omega
      rw [if_pos (decide_eq_true hle), List.map_cons, ih, hzero.1, hzero.2]
      rfl
    · have hsub : a - k = a - (k + 1) + 1 := by omega
      rw [if_neg (by simpa using hle), ih, hsub, List.drop_succ_cons]

end Positions

section Excerpts

theorem charactersAt_from (s : Bytes) (a : Nat) :
    (charactersAt s fun q => a ≤ q) = ((characters s).drop a).flatten := by
  have h := filter_zipIdx_le (characters s) 0 a
  rw [charactersAt, List.flatMap_def, h, Nat.sub_zero]

theorem charactersAt_between (s : Bytes) (a b : Nat) :
    (charactersAt s fun q => a ≤ q && q < b) =
      (((characters s).drop a).take (b - a)).flatten := by
  have hlt := filter_zipIdx_lt (characters s) 0 b
  have hle := filter_zipIdx_le ((characters s).take b) 0 a
  rw [Nat.sub_zero] at hlt hle
  rw [charactersAt, List.flatMap_def, ← List.filter_filter, hlt, hle, List.drop_take]

theorem excerpt_none (s : Bytes) (start : Int) :
    excerpt s start none = if firstPosition s start < 0 then [] else
      ((characters s).drop (firstPosition s start).toNat).flatten := by
  rw [excerpt]
  split
  · rfl
  · rename_i hfirst
    obtain ⟨a, ha⟩ := Int.eq_ofNat_of_zero_le (Int.not_lt.1 hfirst)
    simp only [ha, Option.all_none, Bool.and_true, Int.toNat_natCast, Int.ofNat_le]
    exact charactersAt_from s a

theorem excerpt_some (s : Bytes) (start l : Int) :
    excerpt s start (some l) = if firstPosition s start < 0 then [] else
      (((characters s).drop (firstPosition s start).toNat).take l.toNat).flatten := by
  rw [excerpt]
  split
  · rfl
  · rename_i hfirst
    obtain ⟨a, ha⟩ := Int.eq_ofNat_of_zero_le (Int.not_lt.1 hfirst)
    have hstop (q : Nat) : (q : Int) < a + l ↔ q < (a + l).toNat := by omega
    have hlength : (a + l).toNat - a = l.toNat := by omega
    simp only [ha, Option.all_some, Int.toNat_natCast, Int.ofNat_le, hstop]
    rw [charactersAt_between, hlength]

theorem leadLength_le_four (s : Bytes) : leadLength s ≤ 4 := by
  have hannounced (b : UInt8) : announced b ≤ 3 := by
    rw [announced]
    split_ifs <;> omega
  cases s with
  | nil => exact Nat.zero_le 4
  | cons b s =>
    have hb := hannounced b
    rw [leadLength]
    split <;> omega

theorem substring?_getD (s : Bytes) (i n : Nat) :
    (substring? s i n).getD [] = (((characters s).drop i).take n).flatten := by
  rw [substring?]
  split
  · rfl
  · rename_i hlt
    rw [List.drop_eq_nil_of_le (by omega), List.take_nil]
    rfl

theorem take_characters_congr {s : Bytes} (i : Nat) {n n' : Nat}
    (hn : min (characterCount s) n = min (characterCount s) n') :
    ((characters s).drop i).take n = ((characters s).drop i).take n' := by
  have hlength : ((characters s).drop i).length ≤ characterCount s := by
    rw [List.length_drop]
    exact Nat.sub_le _ _
  rw [List.take_eq_take_iff]
  omega

theorem drop_characters_congr {s : Bytes} {i i' : Nat}
    (hi : min (characterCount s) i = min (characterCount s) i') :
    (characters s).drop i = (characters s).drop i' := by
  have hlength : (characters s).length = characterCount s := rfl
  rw [List.drop_eq_drop_iff, hlength]
  omega

theorem length_le_characterCount (s : Bytes) : s.length ≤ 4 * characterCount s := by
  have hcut : Cut s (characters s) := cut_iff.2 rfl
  rw [characterCount]
  generalize characters s = cs at hcut ⊢
  induction hcut with
  | nil => exact Nat.le_refl 0
  | @cons s cs hs _ ih =>
    have hlead := leadLength_le_four s
    rw [List.length_drop] at ih
    rw [List.length_cons]
    omega

end Excerpts

end TildeText.Bytes

namespace TildeText.Builtin

open Bytes

/-- The arithmetic for a part of a text stays in the range of a word, and so gives on words what it
gives on integers. This holds of the count of characters, of a start that counts back from the end,
and of the indices of bytes that are passed on the way, with as many more as a byte announces. -/
structure ExactPart (s : Bytes) (start : Int64) : Prop where
  counted : (Int64.ofNat (characterCount s)).toInt = characterCount s
  moved : start < 0 →
    (start + Int64.ofNat (characterCount s)).toInt = start.toInt + characterCount s
  index (j : Nat) : ((characters s).take j).flatten.length + 4 ≤ 9223372036854775807

section

variable {s : Bytes} {start : Int64}

theorem toInt_clamp (n : Int64) :
    (clamp n).toInt = max (-2147483648) (min 2147483647 n.toInt) := by
  have hwidest : widest.toInt = 2147483647 := rfl
  have hnarrowest : narrowest.toInt = -2147483648 := rfl
  rw [clamp]
  simp only [gt_iff_lt, Int64.lt_iff_toInt_lt, hwidest, hnarrowest]
  split
  · omega
  · split <;> omega

theorem lt_zero_iff : start < 0 ↔ start.toInt < 0 := Int64.lt_iff_toInt_lt

theorem exactPart (hs : characterCount s < 2147483648) (hstart : -2147483648 ≤ start.toInt) :
    ExactPart s start := by
  have hcounted : (Int64.ofNat (characterCount s)).toInt = characterCount s :=
    Int64.toInt_ofNat_of_lt (by omega)
  refine ⟨hcounted, fun hneg => ?_, fun j => ?_⟩
  · rw [lt_zero_iff] at hneg
    rw [Int64.toInt_add, hcounted]
    exact Int.bmod_eq_of_le (by omega) (by omega)
  · have hindex := (flatten_take_characters s j).length_le
    have hlength := length_le_characterCount s
    omega

theorem part_eq (h : ExactPart s start) (count : Int64) :
    part s start count = s.excerpt start.toInt (some count.toInt) := by
  have hnat (k : Int64) : k.toNatClampNeg = k.toInt.toNat := rfl
  have hfirst : (if start < 0 then start + Int64.ofNat (characterCount s) else start).toInt =
      firstPosition s start.toInt := by
    rw [firstPosition]
    split
    · rename_i hneg
      rw [h.moved hneg, if_pos (lt_zero_iff.1 hneg)]
    · rename_i hneg
      rw [if_neg (mt lt_zero_iff.2 hneg)]
  have hcount : count ≤ 0 ↔ count.toInt ≤ 0 := Int64.le_iff_toInt_le
  simp only [part, substring?_getD, hnat]
  generalize (if start < 0 then start + Int64.ofNat (characterCount s) else start) = first
    at hfirst ⊢
  simp only [lt_zero_iff, hcount, hfirst, excerpt_some]
  by_cases hneg : firstPosition s start.toInt < 0
  · rw [if_pos (.inl hneg), if_pos hneg]
  · rw [if_neg hneg]
    split
    · rename_i hnone
      have hzero : count.toInt.toNat = 0 := by omega
      rw [hzero, List.take_zero]
      rfl
    · rfl

theorem firstPosition_clamp (hs : characterCount s < 2147483648) (p : Int64) :
    (firstPosition s (clamp p).toInt < 0 ↔ firstPosition s p.toInt < 0) ∧
    (characters s).drop (firstPosition s (clamp p).toInt).toNat =
      (characters s).drop (firstPosition s p.toInt).toNat := by
  have hclamp := toInt_clamp p
  simp only [firstPosition]
  refine ⟨?_, drop_characters_congr ?_⟩
  · split <;> split <;> omega
  · split <;> split <;> omega

theorem excerpt_clamp (hs : characterCount s < 2147483648) (p l : Int64) :
    s.excerpt (clamp p).toInt (some (clamp l).toInt) = s.excerpt p.toInt (some l.toInt) := by
  obtain ⟨hneg, hdrop⟩ := firstPosition_clamp hs p
  have hclamp := toInt_clamp l
  have htake : min (characterCount s) (clamp l).toInt.toNat =
      min (characterCount s) l.toInt.toNat := by omega
  rw [excerpt_some, excerpt_some, hdrop, take_characters_congr _ htake]
  simp only [hneg]

theorem excerpt_clamp_widest (hs : characterCount s < 2147483648) (p : Int64) :
    s.excerpt (clamp p).toInt (some widest.toInt) = s.excerpt p.toInt none := by
  obtain ⟨hneg, hdrop⟩ := firstPosition_clamp hs p
  have hwidest : widest.toInt.toNat = 2147483647 := rfl
  have hlength : ((characters s).drop (firstPosition s p.toInt).toNat).length ≤ 2147483647 := by
    rw [List.length_drop]
    exact Nat.le_trans (Nat.sub_le _ _) (Nat.le_of_lt_succ hs)
  rw [excerpt_some, excerpt_none, hdrop, hwidest, List.take_of_length_le hlength]
  simp only [hneg]

theorem exactPart_clamp (hs : characterCount s < 2147483648) (p : Int64) :
    ExactPart s (clamp p) := by
  have hclamp := toInt_clamp p
  exact exactPart hs (by omega)

end

section

variable {ctx : Context} {m m' : Machine} {s tp tl : Bytes} {p l : Int64}

theorem run_substr_rest (hsize : m.scope.frame.size = 3) (h : m.Asks ctx.eval [1, 2] [s, tp] m')
    (hp : number? tp = some p) :
    Program.run ctx substr m = .done .finished (m'.write (part s (clamp p) widest)) := by
  obtain ⟨m₁, hs, hsize₁, h₁⟩ := h.run_arg
  obtain ⟨m₂, hstart, -, h₂⟩ := h₁.run_numberArg hp
  obtain rfl := h₂.eq_of_nil
  have hcount : Program.argCount.run ctx m₁ = .done 3 m₁ := by
    rw [← hsize, ← hsize₁]
    rfl
  rw [substr, Program.run_seq, hs, Outcome.andThen, Program.run_seq, hcount, Outcome.andThen,
    if_neg (by decide), Program.run_seq, hstart]
  rfl

theorem run_substr_length (hsize : 4 ≤ m.scope.frame.size)
    (h : m.Asks ctx.eval [1, 2, 3] [s, tp, tl] m') (hp : number? tp = some p)
    (hl : number? tl = some l) :
    Program.run ctx substr m = .done .finished (m'.write (part s (clamp p) (clamp l))) := by
  obtain ⟨m₁, hs, hsize₁, h₁⟩ := h.run_arg
  obtain ⟨m₂, hstart, -, h₂⟩ := h₁.run_numberArg hp
  obtain ⟨m₃, hlength, -, h₃⟩ := h₂.run_numberArg hl
  obtain rfl := h₃.eq_of_nil
  have hcount : Program.argCount.run ctx m₁ = .done m₁.scope.frame.size m₁ := rfl
  rw [substr, Program.run_seq, hs, Outcome.andThen, Program.run_seq, hcount, Outcome.andThen,
    if_neg (by omega), Program.run_seq, hstart, Outcome.andThen]
  simp only
  rw [if_neg (by omega), Program.run_seq, hlength]
  rfl

end

end TildeText.Builtin

namespace TildeText

open Bytes Builtin

/-- A part of a text is what its start and its length say as integers, whatever words they are.
These are brought into the range of a shorter word first. That changes nothing if the number of
characters is in that range, and no sum leaves the range of a word. The builtin writes this part,
and without a length all characters from the start on. -/
theorem substr_slices (s : Bytes) (hs : characterCount s < 2147483648) (p l : Int64) :
    part s (clamp p) (clamp l) = s.excerpt p.toInt (some l.toInt) ∧
    part s (clamp p) widest = s.excerpt p.toInt none ∧
    ExactPart s (clamp p) ∧
    Registry.standard.lookup (utf8 "substr") = some substr ∧
    ∀ (ctx : Context) (k : Nat) (m m' : Machine) (tp : Bytes), number? tp = some p →
      (m.scope.frame.size = 3 → m.Asks ctx.eval [1, 2] [s, tp] m' →
        Invocation.builtin ctx (k + 1) substr m =
          .done () (m'.write (s.excerpt p.toInt none)).pop) ∧
      ∀ tl, number? tl = some l → 4 ≤ m.scope.frame.size →
        m.Asks ctx.eval [1, 2, 3] [s, tp, tl] m' →
        Invocation.builtin ctx (k + 1) substr m =
          .done () (m'.write (s.excerpt p.toInt (some l.toInt))).pop := by
  have hexact := exactPart_clamp hs p
  have hpart : part s (clamp p) (clamp l) = s.excerpt p.toInt (some l.toInt) := by
    rw [part_eq hexact, excerpt_clamp hs]
  have hrest : part s (clamp p) widest = s.excerpt p.toInt none := by
    rw [part_eq hexact, excerpt_clamp_widest hs]
  refine ⟨hpart, hrest, hexact, rfl, fun ctx k m m' tp hp =>
    ⟨fun hsize hasks => ?_, fun tl hl hsize hasks => ?_⟩⟩
  · rw [Invocation.builtin_succ, run_substr_rest hsize hasks hp, hrest]
  · rw [Invocation.builtin_succ, run_substr_length hsize hasks hp hl, hpart]

def Machine.lastThree : Machine where
  state := { dictionary := { table := Table.empty 0 } }
  scope := ⟨.ofValues [utf8 "substr", utf8 "aé€b", utf8 "-3", utf8 "9223372036854775807"], []⟩

theorem substr_slices_lastThree :
    characterCount (utf8 "aé€b") = 4 ∧ number? (utf8 "-3") = some (-3) ∧
    number? (utf8 "9223372036854775807") = some 9223372036854775807 ∧
    part (utf8 "aé€b") (clamp (-3)) (clamp 9223372036854775807) = utf8 "é€b" ∧
    Invocation.builtin (Registry.standard.context (eval .standard 1)) 1 substr .lastThree =
      .done () (Machine.lastThree.write (utf8 "é€b")).pop := by
  have hcount : characterCount (utf8 "aé€b") = 4 := by decide
  have hstart : number? (utf8 "-3") = some (-3) := by decide
  have hlength : number? (utf8 "9223372036854775807") = some 9223372036854775807 := by decide
  have hexcerpt : (utf8 "aé€b").excerpt (-3 : Int64).toInt
      (some (9223372036854775807 : Int64).toInt) = utf8 "é€b" := by decide
  obtain ⟨hpart, -, -, -, hrun⟩ :=
    substr_slices (utf8 "aé€b") (by rw [hcount]; decide) (-3) 9223372036854775807
  rw [hexcerpt] at hpart hrun
  exact ⟨hcount, hstart, hlength, hpart,
    (hrun _ 0 .lastThree .lastThree _ hstart).2 _ hlength (by decide)
      (.cons (v := some _) rfl (.cons (v := some _) rfl (.cons (v := some _) rfl .nil)))⟩

end TildeText
