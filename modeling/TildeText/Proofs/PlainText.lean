import TildeText.Proofs.Fences

namespace TildeText

def Bytes.IsPlain (s : Bytes) : Prop := ∀ t ∈ s.tokens, t.isPlain = true

namespace Token

theorem spell_infix {t : Token} {ts : List Token} (h : t ∈ ts) : t.spell <:+: spellAll ts := by
  obtain ⟨before, after, rfl⟩ := List.append_of_mem h
  exact ⟨spellAll before, spellAll after, by simp [spellAll]⟩

theorem isPlain_of_closing {ts : List Token} (hopen : ∀ n, .fence (n + 1) ∉ ts)
    (h : ∀ p ∈ located 0 ts, p.1 = 0 → p.2.closes = false) : ∀ t ∈ ts, t.isPlain = true := by
  induction ts with
  | nil => simp
  | cons t ts ih =>
    have ht : t.isPlain = true := by
      cases t with
      | fence n =>
        cases n with
        | zero => rfl
        | succ n => exact absurd List.mem_cons_self (hopen n)
      | run n closes =>
        have hc : closes = false := h _ List.mem_cons_self rfl
        rw [hc, isPlain, Bool.not_false]
      | byte b => rfl
    rw [located, depthAfter_of_isPlain ht] at h
    refine List.forall_mem_cons.2 ⟨ht, ih (fun n hn => hopen n (List.mem_cons_of_mem t hn)) ?_⟩
    exact fun p hp => h p (List.mem_cons_of_mem _ hp)

end Token

theorem Bytes.Balanced.isPlain {s : Bytes} (h : s.Balanced)
    (hs : ¬ [Token.lt, Token.tilde] <:+: s) : s.IsPlain := by
  refine Token.isPlain_of_closing (fun n hn => hs ?_) h.closing
  have hfence := Token.spell_infix hn
  rw [Bytes.spellAll_tokens] at hfence
  have hopen : [Token.lt, Token.tilde] <:+: (Token.fence (n + 1)).spell :=
    ⟨[], List.replicate n Token.tilde, by simp [Token.spell, List.replicate_succ]⟩
  exact hopen.trans hfence

theorem Bytes.tokens_of_free {s : Bytes} (h : Token.lt ∉ s ∧ Token.tilde ∉ s) :
    s.tokens = s.map .byte := by
  induction s with
  | nil => rfl
  | cons b s ih =>
    simp only [List.mem_cons, not_or] at h
    rw [tokens_cons, ih ⟨h.1.2, h.2.2⟩, Token.before, if_neg (Ne.symm h.2.1),
      if_neg (Ne.symm h.1.1), List.map_cons]

theorem Bytes.isPlain_of_free {s : Bytes} (h : Token.lt ∉ s ∧ Token.tilde ∉ s) : s.IsPlain := by
  intro t ht
  rw [tokens_of_free h] at ht
  obtain ⟨b, -, rfl⟩ := List.mem_map.1 ht
  rfl

theorem Bytes.not_fuse_of_free {p : Bytes} (h : Token.lt ∉ p ∧ Token.tilde ∉ p) (s : Bytes) :
    ¬ p.Fuse s := by
  rintro ⟨hl | ht, -⟩
  · exact h.1 (List.mem_of_getLast? hl)
  · exact h.2 (List.mem_of_getLast? ht)

theorem Bytes.isPlain_of_allDigits {s : Bytes} (h : s.allDigits = true) : s.IsPlain := by
  have hd : ∀ b ∈ s, isDigit b = true := by
    simp only [allDigits, Bool.and_eq_true, List.all_eq_true] at h
    exact h.2
  refine isPlain_of_free ⟨fun hl => ?_, fun ht => ?_⟩
  · exact absurd (hd _ hl) (by decide)
  · exact absurd (hd _ ht) (by decide)

theorem Layout.Scan.foldl_plain (ts : List Token) (h : ∀ t ∈ ts, t.isPlain = true)
    (done : List Segment) (k : Nat) :
    ∃ k', ts.foldl step ⟨done, k, .outside⟩ =
      ⟨(ts.map Segment.literal).reverse ++ done, k', .outside⟩ := by
  induction ts generalizing done k with
  | nil => exact ⟨k, rfl⟩
  | cons t ts ih =>
    obtain ⟨ht, hts⟩ := List.forall_mem_cons.1 h
    have hstep : step ⟨done, k, .outside⟩ t = ⟨.literal t :: done, k + t.size, .outside⟩ := by
      cases t with
      | fence n =>
        obtain rfl : n = 0 := by simpa [Token.isPlain] using ht
        rfl
      | run n closes =>
        obtain rfl : closes = false := by simpa [Token.isPlain] using ht
        rfl
      | byte b => rfl
    obtain ⟨k', hk'⟩ := ih hts (.literal t :: done) (k + t.size)
    refine ⟨k', ?_⟩
    rw [List.foldl_cons, hstep, hk']
    simp

theorem Segment.runAll_literals (carryOut : Call → Machine → Outcome Unit) (ts : List Token)
    (m : Machine) :
    runAll carryOut (ts.map .literal) m = .done () (m.write (Token.spellAll ts)) := by
  induction ts generalizing m with
  | nil => rfl
  | cons t ts ih =>
    rw [List.map_cons, runAll, ih, Machine.write_write, Token.spellAll_cons]

namespace Bytes.IsPlain

variable {s : Bytes}

theorem layout_eq (h : s.IsPlain) : s.layout = ⟨s.tokens.map .literal, none⟩ := by
  obtain ⟨k, hk⟩ := Layout.Scan.foldl_plain s.tokens h [] 0
  have hscan : s.scan = ⟨(s.tokens.map Segment.literal).reverse ++ [], k, .outside⟩ := hk
  rw [Bytes.layout_eq_finish, hscan]
  simp [Layout.Scan.finish]

theorem eval_eq (h : s.IsPlain) (registry : Registry) (n : Nat) (name : Bytes) (m : Machine) :
    eval registry (n + 1) ⟨name, s⟩ m = .done () (m.write s) := by
  rw [eval, h.layout_eq, Layout.run_of_no_defect rfl, Segment.runAll_literals,
    Bytes.spellAll_tokens]

end Bytes.IsPlain

theorem Scope.within_around (s : Scope) (f : Frame) :
    s.within f s.around = { s with frame := f } := by
  obtain ⟨frame, outer⟩ := s
  cases outer <;> rfl

theorem Machine.argument_exhausted {m : Machine} {t : Bytes}
    (hs : m.scope.frame.slots[n]? = some { text := some t }) (registry : Registry) :
    m.argument (eval registry 0) n = .exhausted := by
  rw [argument, hs]
  rfl

theorem Machine.argument_plain {m : Machine} {t : Bytes} (ht : t.IsPlain)
    (hs : m.scope.frame.slots[n]? = some { text := some t }) (registry : Registry) (k : Nat) :
    m.argument (eval registry (k + 1)) n = .done (some t) (m.mapFrame (·.remember n t)) := by
  have hout : (({} : Output).write t).toBytes = t := Output.toBytes_write _ _
  rw [argument, hs]
  simp only [ht.eval_eq, write, hout, Scope.within_around]
  rfl

end TildeText
