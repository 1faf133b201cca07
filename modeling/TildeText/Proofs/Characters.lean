import TildeText.Buffer

namespace TildeText.Bytes

/-- The number of bytes in the first character: a byte and what it announces, if all of that follows
it and is continuation bytes, and else the one byte. -/
def leadLength : Bytes → Nat
  | [] => 0
  | b :: s =>
    if announced b ≤ s.length ∧ (s.take (announced b)).all isContinuation = true then
      announced b + 1
    else
      1

/-- A text cut from its start on, one character after the other. -/
inductive Cut : Bytes → List Bytes → Prop
  | nil : Cut [] []
  | cons : s ≠ [] → Cut (s.drop (leadLength s)) cs → Cut s (s.take (leadLength s) :: cs)

section Lead

variable {s t : Bytes}

theorem leadLength_pos (hs : s ≠ []) : 0 < leadLength s := by
  cases s with
  | nil => exact absurd rfl hs
  | cons b s =>
    rw [leadLength]
    split <;> omega

theorem leadLength_le (s : Bytes) : leadLength s ≤ s.length := by
  cases s with
  | nil => exact Nat.le_refl 0
  | cons b s =>
    rw [leadLength, List.length_cons]
    split <;> omega

theorem length_lead (s : Bytes) : (s.take (leadLength s)).length = leadLength s := by
  rw [List.length_take, Nat.min_eq_left (leadLength_le s)]

theorem leadLength_of_prefix (hst : s <+: t) (hs : s ≠ []) (hle : leadLength t ≤ s.length) :
    leadLength s = leadLength t := by
  obtain ⟨r, rfl⟩ := hst
  cases s with
  | nil => exact absurd rfl hs
  | cons b s =>
    rw [List.cons_append, leadLength, List.length_cons] at hle
    rw [List.cons_append, leadLength, leadLength]
    -- all that the byte announces is in the initial part, or the byte stands alone in both texts
    by_cases hlen : announced b ≤ s.length
    · rw [List.take_append_of_le_length hlen, List.length_append]
      have hlen' : announced b ≤ s.length + r.length := by omega
      simp only [hlen, hlen', true_and]
    · split at hle
      · omega
      · rename_i hnot
        rw [if_neg hnot, if_neg fun h => hlen h.1]

end Lead

section Cutting

variable {s u : Bytes} {b : UInt8} {cs : List Bytes}

theorem announced_eq_zero (hb : isContinuation b = true) : announced b = 0 := by
  have h : ∀ n < 256, isContinuation (UInt8.ofNat n) = true → announced (UInt8.ofNat n) = 0 := by
    decide +kernel
  have hofNat := h b.toNat b.toNat_lt
  rw [UInt8.ofNat_toNat] at hofNat
  exact hofNat hb

theorem characters_cons (b : UInt8) (s : Bytes) : characters (b :: s) = attach b (characters s) :=
  rfl

theorem characters_append (hu : ∀ b ∈ u, isContinuation b = true) (s : Bytes) :
    characters (u ++ s) = u.map ([·]) ++ characters s := by
  induction u with
  | nil => rfl
  | cons b u ih =>
    obtain ⟨hb, hu⟩ := List.forall_mem_cons.1 hu
    rw [List.cons_append, characters_cons, ih hu, attach, announced_eq_zero hb]
    rfl

theorem eq_map_of_lone (h : cs.all isLoneContinuation = true) :
    ∃ u : Bytes, cs = u.map ([·]) ∧ ∀ b ∈ u, isContinuation b = true := by
  induction cs with
  | nil => exact ⟨[], rfl, by simp⟩
  | cons c cs ih =>
    rw [List.all_cons, Bool.and_eq_true] at h
    obtain ⟨hc, hcs⟩ := h
    obtain ⟨u, rfl, hu⟩ := ih hcs
    cases c with
    | nil => cases hc
    | cons b c =>
      cases c with
      | nil => exact ⟨b :: u, rfl, List.forall_mem_cons.2 ⟨hc, hu⟩⟩
      | cons b' c => cases hc

theorem flatten_singletons (u : Bytes) : (u.map ([·])).flatten = u := by
  rw [← List.flatMap_def, List.flatMap_singleton']

theorem attach_characters (b : UInt8) (s : Bytes) :
    attach b (characters s) =
      if announced b ≤ s.length ∧ (s.take (announced b)).all isContinuation = true then
        (b :: s.take (announced b)) :: characters (s.drop (announced b))
      else
        [b] :: characters s := by
  by_cases h : announced b ≤ s.length ∧ (s.take (announced b)).all isContinuation = true
  · obtain ⟨hlen, hall⟩ := h
    have hcut : characters s =
        (s.take (announced b)).map ([·]) ++ characters (s.drop (announced b)) := by
      rw [← characters_append (List.all_eq_true.1 hall), List.take_append_drop]
    have hsize : ((s.take (announced b)).map ([·])).length = announced b := by
      rw [List.length_map, List.length_take, Nat.min_eq_left hlen]
    have hlone : ((s.take (announced b)).map ([·])).all isLoneContinuation = true := by
      rw [List.all_map]
      exact hall
    rw [if_pos ⟨hlen, hall⟩, hcut, attach, List.take_left' hsize, List.drop_left' hsize, hsize,
      hlone, flatten_singletons]
    simp
  · rw [if_neg h, attach, if_neg]
    intro hown
    rw [Bool.and_eq_true, decide_eq_true_iff] at hown
    obtain ⟨hsize, hlone⟩ := hown
    obtain ⟨u, hu, hcont⟩ := eq_map_of_lone hlone
    have hlen : u.length = announced b := by rw [← hsize, hu, List.length_map]
    have hs : u ++ ((characters s).drop (announced b)).flatten = s := by
      rw [← flatten_singletons u, ← hu, ← List.flatten_append, List.take_append_drop,
        flatten_characters]
    refine h ⟨?_, ?_⟩
    · rw [← hs, List.length_append]
      omega
    · rw [← hs, List.take_left' hlen]
      exact List.all_eq_true.2 hcont

theorem characters_eq (hs : s ≠ []) :
    characters s = s.take (leadLength s) :: characters (s.drop (leadLength s)) := by
  cases s with
  | nil => exact absurd rfl hs
  | cons b s =>
    rw [characters_cons, attach_characters, leadLength]
    split <;> rfl

theorem cut_iff : Cut s cs ↔ characters s = cs := by
  constructor
  · intro h
    induction h with
    | nil => rfl
    | cons hs _ ih => rw [characters_eq hs, ih]
  · intro h
    induction cs generalizing s with
    | nil =>
      obtain rfl : s = [] := by rw [← flatten_characters s, h, List.flatten_nil]
      exact .nil
    | cons c cs ih =>
      have hs : s ≠ [] := by
        rintro rfl
        cases h
      rw [characters_eq hs, List.cons.injEq] at h
      obtain ⟨rfl, h⟩ := h
      exact .cons hs (ih h)

theorem Cut.ne_nil (h : Cut s cs) : ∀ c ∈ cs, c ≠ [] := by
  induction h with
  | nil => simp
  | @cons s cs hs _ ih =>
    refine List.forall_mem_cons.2 ⟨?_, ih⟩
    have hpos := leadLength_pos hs
    simp only [ne_eq, List.take_eq_nil_iff, not_or]
    exact ⟨by omega, hs⟩

end Cutting

section Recutting

variable {s p u : Bytes}

theorem characters_lead_append (hs : s ≠ []) (hp : p <+: s.drop (leadLength s)) :
    characters (s.take (leadLength s) ++ p) = s.take (leadLength s) :: characters p := by
  obtain ⟨r, hr⟩ := hp
  have hpos := leadLength_pos hs
  have hlen := length_lead s
  have hinitial : s.take (leadLength s) ++ p <+: s :=
    ⟨r, by rw [List.append_assoc, hr, List.take_append_drop]⟩
  have hle : leadLength s ≤ (s.take (leadLength s) ++ p).length := by
    rw [List.length_append, hlen]
    omega
  have hne : s.take (leadLength s) ++ p ≠ [] := by
    rw [← List.length_pos_iff]
    omega
  rw [characters_eq hne, leadLength_of_prefix hinitial hne hle, List.take_left' hlen,
    List.drop_left' hlen]

theorem flatten_take_characters (s : Bytes) (n : Nat) : ((characters s).take n).flatten <+: s :=
  ⟨((characters s).drop n).flatten, by
    rw [← List.flatten_append, List.take_append_drop, flatten_characters]⟩

theorem characters_flatten_take (s : Bytes) (n : Nat) :
    characters ((characters s).take n).flatten = (characters s).take n := by
  induction n generalizing s with
  | zero => rfl
  | succ n ih =>
    by_cases hs : s = []
    · subst hs
      rfl
    · rw [characters_eq hs, List.take_succ_cons, List.flatten_cons,
        characters_lead_append hs (flatten_take_characters _ n), ih]

theorem characters_flatten_drop (s : Bytes) (i : Nat) :
    characters ((characters s).drop i).flatten = (characters s).drop i := by
  induction i generalizing s with
  | zero => rw [List.drop_zero, flatten_characters]
  | succ i ih =>
    by_cases hs : s = []
    · subst hs
      rfl
    · rw [characters_eq hs, List.drop_succ_cons, ih]

theorem characters_flatten_slice (s : Bytes) (i n : Nat) :
    characters (((characters s).drop i).take n).flatten = ((characters s).drop i).take n := by
  have h := characters_flatten_take ((characters s).drop i).flatten n
  rwa [characters_flatten_drop] at h

theorem substring?_eq (h : i ≤ characterCount s) (n : Nat) :
    substring? s i n = some (((characters s).drop i).take n).flatten := if_pos h

theorem substring?_eq_none_iff : substring? s i n = none ↔ characterCount s < i := by
  rw [substring?, ← Nat.not_le]
  simp only [ite_eq_right_iff, reduceCtorEq, imp_false]
  rfl

theorem characterCount_slice (s : Bytes) (i n : Nat) :
    characterCount (((characters s).drop i).take n).flatten = min n (characterCount s - i) := by
  rw [characterCount, characters_flatten_slice, List.length_take, List.length_drop, characterCount]

theorem substring?_slice (hi : i ≤ characterCount s) (hj : j ≤ min n (characterCount s - i))
    (k : Nat) : substring? (((characters s).drop i).take n).flatten j k =
      substring? s (i + j) (min k (n - j)) := by
  rw [substring?_eq (by rwa [characterCount_slice]), substring?_eq (by omega),
    characters_flatten_slice, List.drop_take, List.drop_drop, List.take_take]

/-- The characters of a text from a number on, at most so many of them. -/
def characterSlice (s : Bytes) (start n : Int) : List Bytes :=
  ((characters s).drop start.toNat).take n.toNat

theorem slice_append_slice (s : Bytes) (k : Int) :
    (characterSlice s 0 k).flatten ++ (characterSlice s k (characterCount s)).flatten = s := by
  have hrest : ((characters s).drop k.toNat).length ≤ (characterCount s : Int).toNat := by
    rw [List.length_drop, Int.toNat_natCast]
    exact Nat.sub_le _ _
  rw [characterSlice, characterSlice, List.take_of_length_le hrest, ← List.flatten_append,
    Int.toNat_zero, List.drop_zero, List.take_append_drop, flatten_characters]

end Recutting

section Walking

variable {s : Bytes} {i : Nat}

def countFrom (s : Bytes) (i : Nat) : Nat :=
  if i < s.length then countFrom s (i + leadLength (s.drop i)) + 1 else 0
termination_by s.length - i
decreasing_by
  have hne : s.drop i ≠ [] := by
    rw [← List.length_pos_iff, List.length_drop]
    omega
  have hpos := leadLength_pos hne
  omega

def walk (s : Bytes) (i : Nat) : Nat → Nat
  | 0 => i
  | n + 1 => if i < s.length then walk s (i + leadLength (s.drop i)) n else i

def walk? (s : Bytes) (i : Nat) : Nat → Option Nat
  | 0 => some i
  | n + 1 => if i < s.length then walk? s (i + leadLength (s.drop i)) n else none

theorem characters_drop (h : i < s.length) :
    characters (s.drop i) =
      (s.drop i).take (leadLength (s.drop i)) ::
        characters (s.drop (i + leadLength (s.drop i))) := by
  have hne : s.drop i ≠ [] := by
    rw [← List.length_pos_iff, List.length_drop]
    omega
  rw [characters_eq hne, List.drop_drop]

theorem characters_drop_of_le (h : s.length ≤ i) : characters (s.drop i) = [] := by
  rw [List.drop_eq_nil_of_le h]
  rfl

theorem countFrom_eq (s : Bytes) (i : Nat) : countFrom s i = characterCount (s.drop i) := by
  fun_induction countFrom s i with
  | case1 i h ih => rw [ih, characterCount, characterCount, characters_drop h, List.length_cons]
  | case2 i h => rw [characterCount, characters_drop_of_le (Nat.le_of_not_lt h), List.length_nil]

theorem characterCount_eq_countFrom (s : Bytes) : characterCount s = countFrom s 0 := by
  rw [countFrom_eq, List.drop_zero]

theorem walk_eq (s : Bytes) (i n : Nat) :
    walk s i n = i + ((characters (s.drop i)).take n).flatten.length := by
  induction n generalizing i with
  | zero => rfl
  | succ n ih =>
    rw [walk]
    split
    · rename_i h
      rw [ih, characters_drop h, List.take_succ_cons, List.flatten_cons, List.length_append,
        length_lead, Nat.add_assoc]
    · rename_i h
      rw [characters_drop_of_le (Nat.le_of_not_lt h)]
      rfl

theorem walk?_eq (s : Bytes) (i n : Nat) :
    walk? s i n = if n ≤ characterCount (s.drop i) then some (walk s i n) else none := by
  induction n generalizing i with
  | zero => rfl
  | succ n ih =>
    rw [walk?, walk]
    split
    · rename_i h
      have hcount : characterCount (s.drop i) =
          characterCount (s.drop (i + leadLength (s.drop i))) + 1 := by
        rw [characterCount, characters_drop h, List.length_cons, characterCount]
      simp only [ih, hcount, Nat.add_le_add_iff_right]
    · rename_i h
      rw [characterCount, characters_drop_of_le (Nat.le_of_not_lt h)]
      rfl

theorem drop_length_flatten_take (s : Bytes) (n : Nat) :
    s.drop ((characters s).take n).flatten.length = ((characters s).drop n).flatten := by
  have hs : s = ((characters s).take n).flatten ++ ((characters s).drop n).flatten := by
    rw [← List.flatten_append, List.take_append_drop, flatten_characters]
  calc s.drop ((characters s).take n).flatten.length
    _ = (((characters s).take n).flatten ++ ((characters s).drop n).flatten).drop
          ((characters s).take n).flatten.length := congrArg (List.drop _) hs
    _ = ((characters s).drop n).flatten := List.drop_left

theorem substring?_eq_walk (s : Bytes) (start count : Nat) :
    substring? s start count =
      (walk? s 0 start).map fun i => (s.take (walk s i count)).drop i := by
  rw [walk?_eq, List.drop_zero]
  split
  · rename_i h
    have hpart := flatten_take_characters ((characters s).drop start).flatten count
    rw [characters_flatten_drop] at hpart
    rw [substring?_eq h, Option.map_some, walk_eq s 0, List.drop_zero, Nat.zero_add, walk_eq,
      drop_length_flatten_take, characters_flatten_drop, List.drop_take, drop_length_flatten_take,
      Nat.add_sub_cancel_left, ← List.prefix_iff_eq_take.1 hpart]
  · rename_i h
    rw [substring?_eq_none_iff.2 (Nat.lt_of_not_le h), Option.map_none]

end Walking

end TildeText.Bytes

namespace TildeText.Buffer

open Bytes

variable {t u : Buffer} {start n : Int}

theorem substring?_eq_none_iff (hstart : 0 ≤ start) :
    t.substring? start n = none ↔ characterCount t.bytes < start := by
  rw [substring?, Option.map_eq_none_iff, Bytes.substring?_eq_none_iff]
  omega

theorem substring?_eq_some (h : start ≤ characterCount t.bytes) (n : Int) :
    t.substring? start n = some (ofBytes (characterSlice t.bytes start n).flatten) := by
  rw [substring?, substring?_eq (by omega), characterSlice, Option.map_some]

/-- Characters are counted and taken by their numbers in the same way in all texts, whatever bytes
they are made of. A text is cut from its start in just one way, into characters that are not empty
and make it up, and what is counted is these. A part is the characters from a number on, at most so
many of them, and fails to be there only if the number is beyond the last character; cut again, it
has just these characters. So the two parts on both sides of a number make up the text, and a part
of a part is a part of the text. -/
theorem characters_indexed (t : Buffer) :
    Cut t.bytes (characters t.bytes) ∧ (∀ cs, Cut t.bytes cs → cs = characters t.bytes) ∧
    (∀ c ∈ characters t.bytes, c ≠ []) ∧ (characters t.bytes).flatten = t.bytes ∧
    characterCount t.bytes = (characters t.bytes).length ∧
    (∀ start n : Int, 0 ≤ start →
      (t.substring? start n = none ↔ characterCount t.bytes < start) ∧
      ∀ u, t.substring? start n = some u →
        u = ofBytes (characterSlice t.bytes start n).flatten ∧
        characters u.bytes = characterSlice t.bytes start n ∧
        characterCount u.bytes = min (max n 0) (characterCount t.bytes - start) ∧
        ∀ j m : Int, 0 ≤ j → j ≤ min n (characterCount t.bytes - start) → 0 ≤ m →
          u.substring? j m = t.substring? (start + j) (min m (n - j))) ∧
    ∀ k : Int, 0 ≤ k → k ≤ characterCount t.bytes →
      ∃ u v, t.substring? 0 k = some u ∧ t.substring? k (characterCount t.bytes) = some v ∧
        u.bytes ++ v.bytes = t.bytes := by
  have hcut : Cut t.bytes (characters t.bytes) := cut_iff.2 rfl
  refine ⟨hcut, fun cs h => (cut_iff.1 h).symm, hcut.ne_nil, flatten_characters _, rfl,
    fun start n hstart => ⟨substring?_eq_none_iff hstart, fun u hu => ?_⟩,
    fun k _ hk => ⟨_, _, substring?_eq_some (by omega) k, substring?_eq_some hk _,
      slice_append_slice t.bytes k⟩⟩
  have hle : start ≤ characterCount t.bytes := by
    rw [← Int.not_lt, ← substring?_eq_none_iff (n := n) hstart, hu]
    simp
  rw [substring?_eq_some hle, Option.some.injEq] at hu
  subst hu
  refine ⟨rfl, characters_flatten_slice _ _ _, ?_, fun j m hj hjn hm => ?_⟩
  · have hcount := characterCount_slice t.bytes start.toNat n.toNat
    simp only [ofBytes, characterSlice, hcount]
    omega
  · have hpart := substring?_slice (s := t.bytes) (i := start.toNat) (j := j.toNat) (n := n.toNat)
      (by omega) (by omega) m.toNat
    have hsum : (start + j).toNat = start.toNat + j.toNat := by omega
    have hmin : (min m (n - j)).toNat = min m.toNat (n.toNat - j.toNat) := by omega
    simp only [substring?, ofBytes, characterSlice, hpart, hsum, hmin]

end TildeText.Buffer
