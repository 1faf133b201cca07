import TildeText.Storage.Path

namespace TildeText

namespace Path

structure IsName (c : Bytes) : Prop where
  nonempty : c ≠ []
  notDot : c ≠ dot
  notDotDot : c ≠ dotDot
  free : slash ∉ c

def within (directory c : Bytes) : Bytes :=
  if directory = [slash] then slash :: c
  else if directory = dot then c
  else directory ++ slash :: c

def stack (path : Bytes) : List Bytes := (parts path).foldl (push (isRooted path)) []

def IsKept (part : Bytes) : Prop := part ≠ [] ∧ part ≠ dot ∧ slash ∉ part

theorem parts_cons (b : UInt8) (s : Bytes) : parts (b :: s) = Bytes.pieceBefore slash b (parts s) :=
  rfl

theorem parts_ne_nil (path : Bytes) : parts path ≠ [] := by
  cases path with
  | nil => exact List.cons_ne_nil _ _
  | cons b path =>
    rw [parts, Bytes.pieces, List.foldr_cons, Bytes.pieceBefore.eq_def]
    split <;> split <;> exact List.cons_ne_nil _ _

theorem parts_append (s t : Bytes) : parts (s ++ slash :: t) = parts s ++ parts t := by
  induction s with
  | nil =>
    obtain ⟨p, ps, ht⟩ := List.exists_cons_of_ne_nil (parts_ne_nil t)
    rw [List.nil_append, parts_cons, ht]
    rfl
  | cons b s ih =>
    obtain ⟨p, ps, hs⟩ := List.exists_cons_of_ne_nil (parts_ne_nil s)
    rw [List.cons_append, parts_cons, parts_cons, ih, hs, List.cons_append, Bytes.pieceBefore,
      Bytes.pieceBefore]
    split <;> rfl

theorem parts_of_free {s : Bytes} (h : slash ∉ s) : parts s = [s] := by
  induction s with
  | nil => rfl
  | cons b s ih =>
    obtain ⟨hb, hs⟩ := not_or.1 (mt List.mem_cons.2 h)
    rw [parts_cons, ih hs, Bytes.pieceBefore, if_neg (Ne.symm hb)]

theorem free_of_mem_parts (s : Bytes) : ∀ part ∈ parts s, slash ∉ part := by
  induction s with
  | nil => exact List.forall_mem_singleton.2 List.not_mem_nil
  | cons b s ih =>
    obtain ⟨p, ps, hs⟩ := List.exists_cons_of_ne_nil (parts_ne_nil s)
    rw [hs, List.forall_mem_cons] at ih
    rw [parts_cons, hs, Bytes.pieceBefore]
    split
    · exact List.forall_mem_cons.2 ⟨List.not_mem_nil, List.forall_mem_cons.2 ih⟩
    · rename_i hb
      refine List.forall_mem_cons.2 ⟨fun hmem => ?_, ih.2⟩
      exact (List.mem_cons.1 hmem).elim (fun h => hb h.symm) ih.1

def spell (stack : List Bytes) : Bytes := Bytes.join [slash] stack.reverse

theorem spell_cons (c : Bytes) (stack : List Bytes) :
    spell (c :: stack) = if stack = [] then c else spell stack ++ slash :: c := by
  rw [spell, spell, List.reverse_cons]
  cases h : stack.reverse with
  | nil =>
    rw [if_pos (List.reverse_eq_nil_iff.1 h)]
    exact (Bytes.join_cons _ c []).trans (List.append_nil c)
  | cons p ps =>
    have hne : stack ≠ [] := by
      rintro rfl
      cases h
    rw [if_neg hne, List.cons_append, Bytes.join_cons, Bytes.join_cons]
    simp

theorem clean_eq (path : Bytes) :
    clean path = if isRooted path = true then slash :: spell (stack path)
      else if (spell (stack path)).isEmpty = true then dot else spell (stack path) :=
  rfl

section Kept

variable {st : List Bytes}

theorem kept_push (h : ∀ x ∈ st, IsKept x) (rooted : Bool) {part : Bytes} (hpart : slash ∉ part) :
    ∀ x ∈ push rooted st part, IsKept x := by
  rw [push.eq_def]
  split
  · exact h
  · rename_i hblank
    have hkept : IsKept part := ⟨mt .inl hblank, mt .inr hblank, hpart⟩
    split
    · rename_i hup
      subst hup
      cases st with
      | nil =>
        simp only
        split
        · exact h
        · exact List.forall_mem_singleton.2 hkept
      | cons top rest =>
        simp only
        split
        · exact List.forall_mem_cons.2 ⟨hkept, h⟩
        · exact (List.forall_mem_cons.1 h).2
    · exact List.forall_mem_cons.2 ⟨hkept, h⟩

theorem kept_foldl (rooted : Bool) {ps : List Bytes} (hps : ∀ p ∈ ps, slash ∉ p)
    (h : ∀ x ∈ st, IsKept x) : ∀ x ∈ ps.foldl (push rooted) st, IsKept x := by
  induction ps generalizing st with
  | nil => exact h
  | cons p ps ih =>
    obtain ⟨hp, hps⟩ := List.forall_mem_cons.1 hps
    exact ih hps (kept_push h rooted hp)

theorem kept_stack (path : Bytes) : ∀ x ∈ stack path, IsKept x :=
  kept_foldl _ (free_of_mem_parts path) fun _ h => absurd h List.not_mem_nil

theorem parts_spell (hne : st ≠ []) (h : ∀ x ∈ st, IsKept x) : parts (spell st) = st.reverse := by
  induction st with
  | nil => exact absurd rfl hne
  | cons c st ih =>
    obtain ⟨hc, hst⟩ := List.forall_mem_cons.1 h
    rw [spell_cons, List.reverse_cons]
    split
    · rename_i hnil
      rw [hnil, parts_of_free hc.2.2]
      rfl
    · rename_i hcons
      rw [parts_append, ih hcons hst, parts_of_free hc.2.2]

theorem spell_spec (hne : st ≠ []) (h : ∀ x ∈ st, IsKept x) :
    spell st ≠ [] ∧ spell st ≠ dot ∧ isRooted (spell st) = false := by
  have hparts := parts_spell hne h
  have hmem {x : Bytes} (hx : x ∈ parts (spell st)) : IsKept x := by
    rw [hparts] at hx
    exact h x (List.mem_reverse.1 hx)
  refine ⟨fun hnil => ?_, fun hdot => ?_, ?_⟩
  · rw [hnil] at hmem
    exact (hmem List.mem_cons_self).1 rfl
  · rw [hdot] at hmem
    exact (hmem List.mem_cons_self).2.1 rfl
  · cases hs : spell st with
    | nil => rfl
    | cons b s =>
      refine beq_false_of_ne fun hb => ?_
      obtain rfl : b = slash := Option.some.inj hb
      rw [hs, ← List.nil_append (slash :: s), parts_append] at hmem
      exact (hmem List.mem_cons_self).1 rfl

end Kept

section Clean

variable {path : Bytes}

theorem clean_of_nil (h : stack path = []) :
    clean path = if isRooted path = true then [slash] else dot := by
  rw [clean_eq, h]
  rfl

theorem clean_of_ne_nil (h : stack path ≠ []) :
    clean path =
      if isRooted path = true then slash :: spell (stack path) else spell (stack path) := by
  have hne : (spell (stack path)).isEmpty = false := by
    simpa using (spell_spec h (kept_stack path)).1
  rw [clean_eq, hne]
  rfl

end Clean

section Join

variable {directory c : Bytes}

theorem isRooted_append (h : directory ≠ []) (s : Bytes) :
    isRooted (directory ++ s) = isRooted directory := by
  cases directory with
  | nil => exact absurd rfl h
  | cons b directory => rfl

theorem stack_append (h : directory ≠ []) (hc : IsName c) :
    stack (directory ++ slash :: c) = c :: stack directory := by
  rw [stack, isRooted_append h, parts_append, parts_of_free hc.free, List.foldl_append]
  exact (if_neg fun hblank => hblank.elim hc.nonempty hc.notDot).trans (if_neg hc.notDotDot)

theorem clean_name (hc : IsName c) : clean c = c := by
  have hrooted : isRooted c = false := by
    cases c with
    | nil => rfl
    | cons b c => exact beq_eq_false_iff_ne.2 fun hb => hc.free (Option.some.inj hb ▸ .head c)
  have hstack : stack c = [c] := by
    rw [stack, parts_of_free hc.free]
    exact (if_neg fun hblank => hblank.elim hc.nonempty hc.notDot).trans (if_neg hc.notDotDot)
  rw [clean_of_ne_nil (hstack ▸ List.cons_ne_nil c []), hrooted, hstack, spell_cons]
  rfl

theorem join_eq_within (directory : Bytes) (hc : IsName c) :
    join directory c = within (clean directory) c := by
  by_cases h : directory = []
  · rw [h, join, if_pos rfl, if_neg hc.nonempty, clean_name hc]
    rfl
  have hjoin : directory ++ [slash] ++ c = directory ++ slash :: c := by simp
  have hstack := stack_append h hc
  have hclean := clean_of_ne_nil (hstack ▸ List.cons_ne_nil c (stack directory))
  rw [join, if_neg h, hjoin, hclean, isRooted_append h, hstack, spell_cons]
  by_cases hst : stack directory = []
  · rw [clean_of_nil hst, if_pos hst]
    split <;> rfl
  · obtain ⟨hnil, hdot, hroot⟩ := spell_spec hst (kept_stack directory)
    rw [clean_of_ne_nil hst, if_neg hst]
    split
    · have hslash : slash :: spell (stack directory) ≠ [slash] :=
        fun heq => hnil (List.cons.inj heq).2
      have hdot' : slash :: spell (stack directory) ≠ dot :=
        fun heq => absurd (List.cons.inj heq).1 (by decide)
      rw [within, if_neg hslash, if_neg hdot']
      rfl
    · have hslash : spell (stack directory) ≠ [slash] := by
        intro heq
        rw [heq] at hroot
        cases hroot
      rw [within, if_neg hslash, if_neg hdot]

end Join

end Path

structure Path.IsEntry (directory c path : Bytes) : Prop where
  name : IsName c
  text : path = within (clean directory) c

theorem Path.isEntry_join (directory : Bytes) {c : Bytes} (hc : IsName c) :
    IsEntry directory c (join directory c) :=
  ⟨hc, join_eq_within directory hc⟩

end TildeText
