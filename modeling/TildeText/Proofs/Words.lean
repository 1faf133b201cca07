import TildeText.Shelf

namespace TildeText

namespace Bytes

structure Wording where
  front : Bytes
  later : List Bytes

namespace Wording

def words (w : Wording) : List Bytes :=
  if w.front.isEmpty then w.later else w.front :: w.later

def before (b : UInt8) (w : Wording) : Wording :=
  if isBlank b then ⟨[], w.words⟩ else ⟨b :: w.front, w.later⟩

def text (started due : Bool) (w : Wording) : Bytes :=
  if !started then join [0x20] w.words
  else if due then w.words.flatMap ([0x20] ++ ·)
  else w.front ++ w.later.flatMap ([0x20] ++ ·)

end Wording

def wording (s : Bytes) : Wording := s.foldr Wording.before ⟨[], []⟩

def words (s : Bytes) : List Bytes := s.wording.words

section

variable {s : Bytes} {b : UInt8}

theorem wording_of_blank (hb : isBlank b = true) (s : Bytes) :
    wording (b :: s) = ⟨[], words s⟩ :=
  if_pos hb

theorem wording_of_not_blank (hb : isBlank b = false) (s : Bytes) :
    wording (b :: s) = ⟨b :: s.wording.front, s.wording.later⟩ :=
  if_neg (by simp [hb])

theorem kept_foldl (s : Bytes) (t : Trimming) (h : t.due = true → t.started = true) :
    (s.foldl Trimming.feed t).kept.reverse = t.kept.reverse ++ s.wording.text t.started t.due := by
  induction s generalizing t with
  | nil =>
    obtain ⟨kept, _ | _, _ | _⟩ := t <;> simp [wording, Wording.text, Wording.words, join]
  | cons b s ih =>
    rw [List.foldl_cons]
    cases hb : isBlank b with
    | true =>
      have hfeed : t.feed b = { t with due := t.started } := if_pos hb
      rw [hfeed, ih _ id, wording_of_blank hb]
      obtain ⟨kept, _ | _, _ | _⟩ := t <;> simp [Wording.text, Wording.words, words]
    | false =>
      have hfeed : t.feed b = ⟨b :: (if t.due then 0x20 :: t.kept else t.kept), true, false⟩ :=
        if_neg (by simp [hb])
      rw [hfeed, ih _ fun _ => rfl, wording_of_not_blank hb]
      obtain ⟨kept, _ | _, _ | _⟩ := t
      · simp [Wording.text, Wording.words, join_cons]
      · cases h rfl
      · simp [Wording.text]
      · simp [Wording.text, Wording.words]

theorem trim_eq_join (s : Bytes) : s.trim = join [0x20] s.words := by
  rw [trim, kept_foldl s {} id]
  rfl

example : trim (utf8 " \ta  bc\n") = utf8 "a bc" := by decide

theorem wording_append {w : Bytes} (hw : ∀ b ∈ w, isBlank b = false) (s : Bytes) :
    wording (w ++ s) = ⟨w ++ s.wording.front, s.wording.later⟩ := by
  induction w with
  | nil => rfl
  | cons b w ih =>
    obtain ⟨hb, hw⟩ := List.forall_mem_cons.1 hw
    rw [List.cons_append, wording_of_not_blank hb, ih hw, List.cons_append]

def IsWord (w : Bytes) : Prop := w ≠ [] ∧ ∀ b ∈ w, isBlank b = false

theorem wording_spaced {ws : List Bytes} (h : ∀ w ∈ ws, w.IsWord) :
    wording (ws.flatMap ([0x20] ++ ·)) = ⟨[], ws⟩ := by
  induction ws with
  | nil => rfl
  | cons w ws ih =>
    obtain ⟨⟨hne, hw⟩, hws⟩ := List.forall_mem_cons.1 h
    rw [List.flatMap_cons, List.append_assoc, List.singleton_append, wording_of_blank rfl, words,
      wording_append hw, ih hws]
    simp [Wording.words, hne]

theorem words_join {ws : List Bytes} (h : ∀ w ∈ ws, w.IsWord) : words (join [0x20] ws) = ws := by
  cases ws with
  | nil => rfl
  | cons w ws =>
    obtain ⟨⟨hne, hw⟩, hws⟩ := List.forall_mem_cons.1 h
    rw [join_cons, words, wording_append hw, wording_spaced hws]
    simp [Wording.words, hne]

theorem front_spec (s : Bytes) : ∃ rest, s = s.wording.front ++ rest ∧
    (∀ b ∈ s.wording.front, isBlank b = false) ∧ ∀ b, rest[0]? = some b → isBlank b = true := by
  induction s with
  | nil => exact ⟨[], rfl, by simp [wording], by simp⟩
  | cons b s ih =>
    cases hb : isBlank b with
    | true =>
      exact ⟨b :: s, by simp [wording_of_blank hb], by simp [wording_of_blank hb], by simp [hb]⟩
    | false =>
      obtain ⟨rest, hs, hfront, hrest⟩ := ih
      rw [wording_of_not_blank hb]
      exact ⟨rest, congrArg (b :: ·) hs, List.forall_mem_cons.2 ⟨hb, hfront⟩, hrest⟩

theorem isWord_of_mem_words {w : Bytes} (h : w ∈ words s) : w.IsWord := by
  have hfront (s : Bytes) (hlater : ∀ w ∈ s.wording.later, w.IsWord) : ∀ w ∈ words s, w.IsWord := by
    intro w hw
    rw [words, Wording.words] at hw
    split at hw
    · exact hlater w hw
    · rename_i hne
      rcases List.mem_cons.1 hw with rfl | hw
      · obtain ⟨-, -, hfront, -⟩ := s.front_spec
        exact ⟨by simpa using hne, hfront⟩
      · exact hlater w hw
  refine hfront s ?_ w h
  clear h w
  induction s with
  | nil => simp [wording]
  | cons b s ih =>
    cases hb : isBlank b with
    | true => exact wording_of_blank hb s ▸ hfront s ih
    | false => exact wording_of_not_blank hb s ▸ ih

theorem words_trim (s : Bytes) : s.trim.words = s.words := by
  rw [trim_eq_join, words_join fun _ => isWord_of_mem_words]

/-- The bytes of a text from an index up to another one are a word: none of them is white space, and
there is none but white space, if anything, right before and right after them. -/
structure IsRun (s : Bytes) (i j : Nat) : Prop where
  lt : i < j
  le : j ≤ s.length
  inside : ∀ k b, i ≤ k → k < j → s[k]? = some b → 0x20 < b
  before : ∀ k b, k + 1 = i → s[k]? = some b → b ≤ 0x20
  after : ∀ b, s[j]? = some b → b ≤ 0x20

theorem isBlank_iff : isBlank b = true ↔ b ≤ 0x20 := by simp [isBlank]

theorem not_isBlank_iff : isBlank b = false ↔ 0x20 < b := by simp [isBlank]

theorem isRun_cons_succ (s : Bytes) (i j : Nat) :
    IsRun (b :: s) (i + 1) (j + 1) ↔ s.IsRun i j ∧ (i = 0 → isBlank b = true) := by
  constructor
  · intro h
    refine ⟨⟨by have := h.lt; omega, by simpa using h.le, fun k c hi hj hk => ?_,
      fun k c hk hc => ?_, fun c hc => ?_⟩, fun hi => ?_⟩
    · exact h.inside (k + 1) c (by omega) (by omega) (by simpa using hk)
    · exact h.before (k + 1) c (by omega) (by simpa using hc)
    · exact h.after c (by simpa using hc)
    · exact isBlank_iff.2 (h.before 0 b (by omega) rfl)
  · rintro ⟨h, hb⟩
    refine ⟨by have := h.lt; omega, by simpa using h.le, fun k c hi hj hk => ?_,
      fun k c hk hc => ?_, fun c hc => ?_⟩
    · obtain ⟨k, rfl⟩ := Nat.exists_eq_add_of_lt (Nat.lt_of_lt_of_le i.succ_pos hi)
      exact h.inside k c (by omega) (by omega) (by simpa using hk)
    · cases k with
      | zero =>
        cases hc
        exact isBlank_iff.1 (hb (by omega))
      | succ k => exact h.before k c (by omega) (by simpa using hc)
    · exact h.after c (by simpa using hc)

theorem isRun_later_iff (s : Bytes) (i j : Nat) :
    IsRun (b :: s) i j ∧ 0 < i ↔
      ∃ i₀ j₀, i = i₀ + 1 ∧ j = j₀ + 1 ∧ s.IsRun i₀ j₀ ∧ (i₀ = 0 → isBlank b = true) := by
  constructor
  · rintro ⟨h, hi⟩
    have hlt := h.lt
    obtain ⟨i₀, rfl⟩ := Nat.exists_eq_succ_of_ne_zero (by omega : i ≠ 0)
    obtain ⟨j₀, rfl⟩ := Nat.exists_eq_succ_of_ne_zero (by omega : j ≠ 0)
    exact ⟨i₀, j₀, rfl, rfl, (isRun_cons_succ s i₀ j₀).1 h⟩
  · rintro ⟨i₀, j₀, rfl, rfl, h⟩
    exact ⟨(isRun_cons_succ s i₀ j₀).2 h, i₀.succ_pos⟩

theorem isRun_zero_iff (s : Bytes) (j : Nat) :
    s.IsRun 0 j ↔ 0 < j ∧ j = s.wording.front.length := by
  obtain ⟨rest, hs, hfront, hrest⟩ := s.front_spec
  generalize s.wording.front = f at hs hfront
  subst hs
  have hinside (k : Nat) (hk : k < f.length) (b : UInt8) (hb : (f ++ rest)[k]? = some b) :
      isBlank b = false := by
    rw [List.getElem?_append_left hk] at hb
    exact hfront b (List.mem_of_getElem? hb)
  have hafter (b : UInt8) (hb : (f ++ rest)[f.length]? = some b) : isBlank b = true := by
    rw [List.getElem?_append_right (Nat.le_refl _), Nat.sub_self] at hb
    exact hrest b hb
  constructor
  · intro h
    have hlt := h.lt
    have hle := h.le
    refine ⟨hlt, Nat.le_antisymm (Nat.le_of_not_lt fun hj => ?_) (Nat.le_of_not_lt fun hj => ?_)⟩
    · have hb := List.getElem?_eq_getElem (Nat.lt_of_lt_of_le hj hle)
      have hin := not_isBlank_iff.2 (h.inside _ _ (Nat.zero_le _) hj hb)
      rw [hafter _ hb] at hin
      cases hin
    · have hb := List.getElem?_eq_getElem (l := f ++ rest) (i := j) (by simp; omega)
      have hout := isBlank_iff.2 (h.after _ hb)
      rw [hinside j hj _ hb] at hout
      cases hout
  · rintro ⟨hpos, rfl⟩
    exact ⟨hpos, by simp, fun k b _ hk hb => not_isBlank_iff.1 (hinside k hk b hb),
      fun k _ hk => absurd hk k.succ_ne_zero, fun b hb => isBlank_iff.1 (hafter b hb)⟩

theorem IsRun.lt_of_lt {i j i' j' : Nat} (h : s.IsRun i j) (h' : s.IsRun i' j') (hi : i < i') :
    j < i' := by
  refine Nat.lt_of_not_le fun hj => ?_
  obtain ⟨k, rfl⟩ : ∃ k, i' = k + 1 := Nat.exists_eq_succ_of_ne_zero (by omega)
  have hle := h.le
  have hb := List.getElem?_eq_getElem (l := s) (i := k) (by omega)
  have hout := isBlank_iff.2 (h'.before k _ rfl hb)
  rw [not_isBlank_iff.2 (h.inside k _ (by omega) (by omega) hb)] at hout
  cases hout

def between (s : Bytes) (p : Nat × Nat) : Bytes := (s.take p.2).drop p.1

/-- Pairs of indices that are all those with a property, each pair ending before the next begins. -/
structure Spans (P : Nat → Nat → Prop) (spans : List (Nat × Nat)) : Prop where
  ordered : spans.Pairwise fun p q => p.2 < q.1
  all : ∀ i j, (i, j) ∈ spans ↔ P i j

theorem Spans.shift {P P' : Nat → Nat → Prop} {spans : List (Nat × Nat)} (h : Spans P spans)
    (hP : ∀ i j, P' i j ↔ ∃ i₀ j₀, i = i₀ + 1 ∧ j = j₀ + 1 ∧ P i₀ j₀) :
    Spans P' (spans.map fun p => (p.1 + 1, p.2 + 1)) := by
  refine ⟨List.pairwise_map.2 (h.ordered.imp fun hpq => Nat.succ_lt_succ hpq), fun i j => ?_⟩
  rw [hP, List.mem_map]
  constructor
  · rintro ⟨⟨i₀, j₀⟩, hmem, heq⟩
    cases heq
    exact ⟨i₀, j₀, rfl, rfl, (h.all i₀ j₀).1 hmem⟩
  · rintro ⟨i₀, j₀, rfl, rfl, hp⟩
    exact ⟨(i₀, j₀), (h.all i₀ j₀).2 hp, rfl⟩

theorem spans_words {spans : List (Nat × Nat)} (h : Spans (fun i j => s.IsRun i j ∧ 0 < i) spans)
    (hlater : s.wording.later = spans.map s.between) :
    ∃ spans, Spans s.IsRun spans ∧ s.words = spans.map s.between := by
  by_cases hfront : s.wording.front = []
  · refine ⟨spans, ⟨h.ordered, fun i j => (h.all i j).trans ⟨And.left, fun hrun => ⟨hrun, ?_⟩⟩⟩, ?_⟩
    · refine Nat.pos_of_ne_zero fun hi => ?_
      obtain ⟨hpos, hj⟩ := (isRun_zero_iff s j).1 (hi ▸ hrun)
      simp [hfront] at hj
      omega
    · rw [words, Wording.words, hfront, hlater]
      rfl
  · have hfirst : s.IsRun 0 s.wording.front.length :=
      (isRun_zero_iff s _).2 ⟨List.length_pos_iff.2 hfront, rfl⟩
    refine ⟨(0, s.wording.front.length) :: spans, ⟨List.pairwise_cons.2 ⟨?_, h.ordered⟩, ?_⟩, ?_⟩
    · rintro ⟨i, j⟩ hmem
      obtain ⟨hrun, hi⟩ := (h.all i j).1 hmem
      exact hfirst.lt_of_lt hrun hi
    · intro i j
      rw [List.mem_cons, h.all, Prod.mk.injEq]
      constructor
      · rintro (⟨rfl, rfl⟩ | ⟨hrun, -⟩)
        · exact hfirst
        · exact hrun
      · intro hrun
        rcases Nat.eq_zero_or_pos i with rfl | hi
        · exact .inl ⟨rfl, ((isRun_zero_iff s j).1 hrun).2⟩
        · exact .inr ⟨hrun, hi⟩
    · obtain ⟨rest, hs, -⟩ := s.front_spec
      have hbetween : s.between (0, s.wording.front.length) = s.wording.front := by
        generalize s.wording.front = f at hs
        simp [hs, between]
      rw [words, Wording.words, if_neg (by simpa using hfront), List.map_cons, hbetween, hlater]

theorem spans_later (s : Bytes) :
    ∃ spans, Spans (fun i j => s.IsRun i j ∧ 0 < i) spans ∧
      s.wording.later = spans.map s.between := by
  induction s with
  | nil =>
    refine ⟨[], ⟨.nil, fun i j => ⟨fun h => absurd h List.not_mem_nil, fun h => ?_⟩⟩, rfl⟩
    have hlt := h.1.lt
    have hle : j ≤ 0 := h.1.le
    omega
  | cons b s ih =>
    obtain ⟨spans, hspans, hlater⟩ := ih
    have hshift (spans : List (Nat × Nat)) :
        (spans.map fun p => (p.1 + 1, p.2 + 1)).map (between (b :: s)) = spans.map (between s) := by
      rw [List.map_map]
      rfl
    cases hb : isBlank b with
    | true =>
      obtain ⟨spans, hspans, hwords⟩ := spans_words hspans hlater
      refine ⟨_, hspans.shift fun i j => ?_, ?_⟩
      · simp only [isRun_later_iff, hb, implies_true, and_true]
      · rw [hshift, wording_of_blank hb, hwords]
    | false =>
      refine ⟨_, hspans.shift fun i j => ?_, ?_⟩
      · rw [isRun_later_iff]
        simp only [hb, Bool.false_eq_true, imp_false, Nat.pos_iff_ne_zero, ne_eq]
      · rw [hshift, wording_of_not_blank hb, hlater]

theorem words_spans (s : Bytes) :
    ∃ spans, Spans s.IsRun spans ∧ s.words = spans.map s.between := by
  obtain ⟨spans, hspans, hlater⟩ := s.spans_later
  exact spans_words hspans hlater

end

end Bytes

theorem Buffer.bytes_appendTrimmed (t : Buffer) (s : Bytes) :
    (t.appendTrimmed s).bytes = t.bytes ++ s.trim := by
  rw [appendTrimmed, append]
  split
  · simp_all
  · rfl

namespace Shelf

theorem get_put (s : Shelf) (label : Bytes) (t : Buffer) : (s.put label t).get label = t := by
  simp [get, get?, put]

theorem remove_put (s : Shelf) (label : Bytes) (t : Buffer) :
    (s.put label t).remove label = s.remove label := by
  simp [remove, put]

end Shelf

/-- Trimming comes down to words. What is added to a buffer is the text of another one, or of the
buffer itself as it was before, with its words joined by single spaces; no other buffer is touched.
The words are the maximal runs of bytes above the space, in order. So trimming a text that has been
trimmed does nothing, and two texts come to the same just if they have the same words. -/
theorem trimming_normalises :
    (∀ (s : Shelf) (r o : Bytes),
      ((s.apply (.appendTrimmed r o)).get r).bytes =
        (s.get r).bytes ++ Bytes.join [0x20] (s.get o).bytes.words ∧
      (s.apply (.appendTrimmed r o)).remove r = s.remove r) ∧
    (∀ s : Bytes, ∃ spans, Bytes.Spans s.IsRun spans ∧ s.words = spans.map s.between) ∧
    (∀ s : Bytes, s.trim = Bytes.join [0x20] s.words ∧ s.trim.trim = s.trim) ∧
    ∀ s t : Bytes, s.trim = t.trim ↔ s.words = t.words := by
  refine ⟨fun s r o => ⟨?_, Shelf.remove_put _ _ _⟩, Bytes.words_spans,
    fun s => ⟨s.trim_eq_join, ?_⟩, fun s t => ⟨fun h => ?_, fun h => ?_⟩⟩
  · rw [Shelf.apply, Shelf.modify, Shelf.get_put, Buffer.bytes_appendTrimmed, Bytes.trim_eq_join]
  · rw [Bytes.trim_eq_join, Bytes.words_trim, ← Bytes.trim_eq_join]
  · rw [← s.words_trim, h, t.words_trim]
  · rw [s.trim_eq_join, t.trim_eq_join, h]

end TildeText
