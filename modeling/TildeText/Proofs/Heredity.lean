import Mathlib.Data.List.Chain
import TildeText.Proofs.Fences

/-!
The arguments of an invocation are cut out of the text around them, and read again by themselves.
Both readings find the same tokens, so whatever the text around an argument is like, the argument
closes all that it opens and nothing else.
-/

namespace TildeText

namespace Token

def Apart : Token → Token → Prop
  | .fence _, u => ∀ n closes, u ≠ .run n closes
  | .run _ false, u => u.takesTilde = false
  | _, _ => True

def Whole : Token → Prop
  | .fence _ => True
  | .run n _ => 0 < n
  | .byte b => b ≠ lt ∧ b ≠ tilde

structure Lexed (ts : List Token) : Prop where
  apart : ts.IsChain Apart
  whole : ∀ t ∈ ts, t.Whole

namespace Lexed

variable {t : Token} {ts us : List Token}

theorem nil : Lexed [] := ⟨.nil, by simp⟩

theorem cons (h : Lexed ts) (ht : t.Whole) (ha : ∀ u ∈ ts.head?, t.Apart u) : Lexed (t :: ts) := by
  refine ⟨List.isChain_cons.2 ⟨ha, h.apart⟩, ?_⟩
  intro u hu
  rcases List.mem_cons.1 hu with rfl | hu
  · exact ht
  · exact h.whole u hu

theorem head (h : Lexed (t :: ts)) : t.Whole := h.whole t List.mem_cons_self

theorem next (h : Lexed (t :: ts)) : ∀ u ∈ ts.head?, t.Apart u := (List.isChain_cons.1 h.apart).1

theorem tail (h : Lexed (t :: ts)) : Lexed ts :=
  ⟨(List.isChain_cons.1 h.apart).2, fun u hu => h.whole u (List.mem_cons_of_mem t hu)⟩

theorem left (h : Lexed (ts ++ us)) : Lexed ts :=
  ⟨h.apart.left_of_append, fun t ht => h.whole t (List.mem_append_left us ht)⟩

theorem right (h : Lexed (ts ++ us)) : Lexed us :=
  ⟨h.apart.right_of_append, fun t ht => h.whole t (List.mem_append_right ts ht)⟩

theorem replace (h : Lexed (t :: ts)) (t' : Token) (ht : t'.Whole)
    (ha : ∀ u, t.Apart u → t'.Apart u) : Lexed (t' :: ts) :=
  h.tail.cons ht fun u hu => ha u (h.next u hu)

theorem beforeTilde (h : Lexed ts) : Lexed (beforeTilde ts) := by
  cases ts with
  | nil => exact nil.cons Nat.one_pos (by simp)
  | cons t ts =>
    cases t with
    | fence n => exact h.cons Nat.one_pos (by simp [Apart, takesTilde])
    | run n closes =>
      refine h.replace (.run (n + 1) closes) (Nat.succ_pos n) ?_
      intro u hu
      cases closes <;> exact hu
    | byte b =>
      simp only [Token.beforeTilde]
      split
      · exact h.tail.cons Nat.one_pos (by simp [Apart])
      · rename_i hb
        exact h.cons Nat.one_pos (by simpa [Apart, takesTilde] using hb)

theorem beforeLt (h : Lexed ts) : Lexed (beforeLt ts) := by
  cases ts with
  | nil => exact nil.cons trivial (by simp)
  | cons t ts =>
    cases t with
    | fence n => exact h.cons trivial (by simp [Apart])
    | run n closes =>
      cases closes with
      | true =>
        have hgt : Lexed (.byte gt :: ts) := h.tail.cons ⟨by decide, by decide⟩ fun _ _ => trivial
        exact hgt.cons trivial (by simp [Apart])
      | false =>
        refine h.replace (.fence n) trivial ?_
        rintro u hu k closes rfl
        cases hu
    | byte b => exact h.cons trivial (by simp [Apart])

theorem before (h : Lexed ts) (b : UInt8) : Lexed (before b ts) := by
  rw [Token.before]
  split
  · exact h.beforeTilde
  · split
    · exact h.beforeLt
    · rename_i ht hl
      exact h.cons ⟨hl, ht⟩ fun _ _ => trivial

end Lexed

end Token

namespace Bytes

theorem lexed_tokens (s : Bytes) : Token.Lexed s.tokens := by
  induction s with
  | nil => exact .nil
  | cons b s ih => exact ih.before b

theorem beforeLt_of_not_run {ts : List Token} (h : ∀ u ∈ ts.head?, ∀ n closes, u ≠ .run n closes) :
    Token.beforeLt ts = .fence 0 :: ts := by
  cases ts with
  | nil => rfl
  | cons t ts =>
    cases t with
    | fence n => rfl
    | run n closes => exact absurd rfl (h _ rfl n closes)
    | byte b => rfl

theorem tokens_spell_append {t : Token} {s : Bytes} (ht : t.Whole)
    (ha : ∀ u ∈ s.tokens.head?, t.Apart u) : tokens (t.spell ++ s) = t :: s.tokens := by
  cases t with
  | fence n =>
    cases n with
    | zero => exact beforeLt_of_not_run ha
    | succ n =>
      have hs : s.head? ≠ some Token.tilde := by
        intro hs
        obtain ⟨s, rfl⟩ := List.head?_eq_some_iff.1 hs
        obtain ⟨k, closes, us, hus⟩ := Token.beforeTilde_eq (tokens s)
        rw [tokens_tilde, hus] at ha
        exact ha _ rfl _ _ rfl
      simpa [Token.spell] using tokens_fence hs (Nat.succ_pos n)
  | run n closes =>
    cases closes with
    | true => simpa [Token.spell] using tokens_tildes_gt ht s
    | false =>
      have hone : tokens (Token.tilde :: s) = .run 1 false :: s.tokens :=
        Token.beforeTilde_of_not_takes _ ha
      simpa [Token.spell] using tokens_tildes (r := 0) hone ht
  | byte b => simp [Token.spell, Token.before, ht.1, ht.2]

theorem tokens_spellAll {ts : List Token} (h : Token.Lexed ts) :
    tokens (Token.spellAll ts) = ts := by
  induction ts with
  | nil => rfl
  | cons t ts ih =>
    have hts := ih h.tail
    have hnext := h.next
    rw [← hts] at hnext
    rw [Token.spellAll_cons, tokens_spell_append h.head hnext, hts]

end Bytes

theorem Token.depthAfter_of_succ {t : Token} (h : t.depthAfter (d + 1) = k + 1) :
    t.depthAfter d = k := by
  cases t with
  | byte b => simpa [depthAfter] using h
  | fence n => cases n <;> simpa [depthAfter] using h
  | run n closes =>
    cases closes with
    | false => simpa [depthAfter] using h
    | true =>
      obtain rfl : d = k + 1 := by simpa [depthAfter] using h
      rfl

theorem Bytes.balanced_nil : Balanced [] := by decide

namespace Opened

structure Balances (o : Opened) (rest : List Token) : Prop where
  lexed : Token.Lexed (o.pending.reverse ++ rest)
  depth : o.pending.reverse.foldl Token.depthAfter 0 = o.inner
  closing : ∀ p ∈ Token.located 0 o.pending.reverse, p.1 = 0 → p.2.closes = false
  ended : ∀ a ∈ o.ended, a.Balanced

namespace Balances

variable {o o' : Opened} {t : Token} {rest : List Token}

theorem pendingText (h : o.Balances rest) (hi : o.inner = 0) : o.pendingText.Balanced := by
  have ht : o.pendingText.tokens = o.pending.reverse := Bytes.tokens_spellAll h.lexed.left
  refine ⟨?_, ?_⟩
  · rw [Bytes.isComplete_iff, ht, h.depth, hi]
  · rw [ht]
    exact h.closing

theorem keep (h : o.Balances (t :: rest)) (hk : t.depthAfter o.inner = k)
    (hc : o.inner = 0 → t.closes = false) :
    Balances { o.keep t with inner := k } rest := by
  have hp : (o.keep t).pending.reverse = o.pending.reverse ++ [t] := List.reverse_cons
  refine ⟨?_, ?_, ?_, h.ended⟩
  · rw [hp, List.append_assoc]
    exact h.lexed
  · rw [hp, List.foldl_append, h.depth]
    exact hk
  · rw [hp, Token.located_append, h.depth]
    intro p hmem hzero
    rcases List.mem_append.1 hmem with hmem | hmem
    · exact h.closing p hmem hzero
    · obtain rfl : p = (o.inner, t) := by simpa [Token.located] using hmem
      exact hc hzero

theorem ended_split (h : o.Balances rest) (hi : o.inner = 0) (n : Nat) :
    ∀ a ∈ (o.split n).ended, a.Balanced := by
  rw [Opened.split]
  split
  · exact h.ended
  · intro a ha
    rcases List.mem_append.1 ha with ha | ha
    · rw [List.eq_of_mem_replicate ha]
      exact Bytes.balanced_nil
    · rcases List.mem_cons.1 ha with rfl | ha
      · exact h.pendingText hi
      · exact h.ended a ha

theorem split (h : o.Balances (.run n false :: rest)) (hi : o.inner = 0) :
    (o.split n).Balances rest := by
  have hended := h.ended_split hi n
  rw [Opened.split] at hended ⊢
  split
  · exact h.keep rfl fun _ => rfl
  · rename_i hn
    rw [if_neg hn] at hended
    by_cases hz : n % o.width = 0
    · simp only [hz, if_true]
      exact ⟨h.lexed.right.tail, hi.symm, by simp [Token.located], hended⟩
    · simp only [hz, if_false]
      refine ⟨?_, hi.symm, by simp [Token.located, Token.closes], hended⟩
      exact h.lexed.right.replace (.run (n % o.width) false) (Nat.pos_of_ne_zero hz) fun _ => id

theorem takes (h : o.Balances (t :: rest)) (ht : o.Takes t (.opened o')) : o'.Balances rest := by
  cases ht with
  | keep hk hrun =>
    apply h.keep (Token.depthAfter_of_succ hk)
    intro hi
    cases t with
    | run n closes => exact absurd rfl (hrun hi n closes)
    | fence n => rfl
    | byte b => rfl
  | split hi => exact h.split hi

end Balances

end Opened

def Defect.args : Defect → List Bytes
  | .shortClose o | .missingClose o => o.args
  | .extraClose _ => []

theorem Defect.Alike.of_args {G : Frame → Frame → Prop} {src : Source} {d : Option Defect}
    (h : ∀ e, d = some e → ∀ origin, G (.ofTexts e.args origin) (.ofTexts e.args origin)) :
    Alike G src src d d := by
  cases d with
  | none => exact .none
  | some d =>
    cases d with
    | shortClose o => exact .shortClose (h _ rfl _)
    | missingClose o => exact .missingClose (h _ rfl _)
    | extraClose k => exact .extraClose (h _ rfl _)

namespace Layout

def Phase.Balances (rest : List Token) : Phase → Prop
  | .outside => Token.Lexed rest
  | .inside o => o.Balances rest
  | .broken d => ∀ a ∈ d.args, a.Balanced

structure Scan.Balances (s : Scan) (rest : List Token) : Prop where
  calls : ∀ c, .call c ∈ s.segments → ∀ a ∈ c.args, a.Balanced
  phase : s.phase.Balances rest

namespace Scan

theorem step_balances {s : Scan} {t : Token} {rest : List Token} (h : s.Balances (t :: rest)) :
    (s.step t).Balances rest := by
  have hm := s.moves_step t
  generalize s.step t = s' at hm ⊢
  obtain ⟨hcalls, hphase⟩ := h
  cases hm with
  | copy hp => exact ⟨by simpa using hcalls, hphase.tail⟩
  | opens => exact ⟨hcalls, hphase.tail, rfl, by simp [Token.located], by simp⟩
  | extra => exact ⟨by simpa using hcalls, by simp [Phase.Balances, Defect.args]⟩
  | opened ht => exact ⟨hcalls, Opened.Balances.takes hphase ht⟩
  | @closed done k o c _ ht =>
    cases ht with
    | @close n hi hn =>
      have hargs : ∀ a ∈ (o.split n).call.args, a.Balanced := by
        intro a ha
        exact Opened.Balances.ended_split hphase hi n a (List.mem_reverse.1 ha)
      refine ⟨?_, hphase.lexed.right.tail⟩
      intro c hc
      rcases List.mem_cons.1 hc with hc | hc
      · cases hc
        exact hargs
      · exact hcalls c hc
  | short ht =>
    cases ht with
    | @short n hi hn =>
      refine ⟨hcalls, ?_⟩
      intro a ha
      exact Opened.Balances.ended_split hphase hi n a (List.mem_reverse.1 ha)
  | stopped => exact ⟨hcalls, hphase⟩

theorem foldl_balances (ts : List Token) {s : Scan} (h : s.Balances ts) :
    (ts.foldl step s).Balances [] := by
  induction ts generalizing s with
  | nil => exact h
  | cons t ts ih => exact ih (step_balances h)

end Scan

end Layout

namespace Bytes

theorem scan_balances (s : Bytes) : s.scan.Balances [] :=
  Layout.Scan.foldl_balances s.tokens ⟨by simp, s.lexed_tokens⟩

theorem args_balanced {s : Bytes} (h : .call c ∈ s.layout.segments) : ∀ a ∈ c.args, a.Balanced :=
  s.scan_balances.calls c (List.mem_reverse.1 h)

theorem defect_args_balanced {s : Bytes} (h : s.layout.defect = some d) :
    ∀ a ∈ d.args, a.Balanced := by
  have hs := s.scan_balances.phase
  rw [layout_eq_finish, Layout.Scan.finish] at h
  cases hp : s.scan.phase with
  | outside => simp [hp] at h
  | inside o =>
    obtain rfl : Defect.missingClose o = d := by simpa [hp] using h
    rw [hp] at hs
    intro a ha
    exact hs.ended a (List.mem_reverse.1 ha)
  | broken d' =>
    obtain rfl : d' = d := by simpa [hp] using h
    rw [hp] at hs
    exact hs

theorem infix_join {texts : List Bytes} (h : a ∈ texts) (separator : Bytes) :
    a <:+: join separator texts := by
  induction texts with
  | nil => cases h
  | cons s rest ih =>
    cases rest with
    | nil =>
      obtain rfl := List.mem_singleton.1 h
      exact ⟨[], [], by simp [join_singleton]⟩
    | cons s' rest =>
      rw [join_cons_cons]
      rcases List.mem_cons.1 h with rfl | h
      · exact (List.prefix_append _ _).isInfix
      · exact (ih h).trans ((List.suffix_append _ _).trans (List.suffix_append _ _)).isInfix

theorem infix_of_call {s : Bytes} (h : .call c ∈ s.layout.segments) : c.render <:+: s := by
  obtain ⟨before, after, hseg⟩ := List.append_of_mem h
  obtain ⟨rest, hs, -⟩ := s.layout_rest
  refine ⟨Segment.renderAll before, Segment.renderAll after ++ rest, ?_⟩
  rw [hs, hseg]
  simp [Segment.render]

theorem infix_of_arg {s : Bytes} (h : .call c ∈ s.layout.segments) (ha : a ∈ c.args) :
    a <:+: s ∧ a.length < s.length := by
  have hcall := infix_of_call h
  have hjoin := infix_join ha (List.replicate c.width Token.tilde)
  have hargs : a <:+: c.render.tail := by
    refine hjoin.trans ⟨List.replicate c.width Token.tilde,
      List.replicate c.width Token.tilde ++ [Token.gt], ?_⟩
    simp [Call.render]
  refine ⟨(hargs.trans (List.tail_suffix _).isInfix).trans hcall, ?_⟩
  calc a.length ≤ c.render.tail.length := hargs.length_le
    _ < c.render.length := by simp [Call.render]
    _ ≤ s.length := hcall.length_le

theorem infix_of_defect_arg {s : Bytes} (h : s.layout.defect = some d) (ha : a ∈ d.args) :
    a <:+: s := by
  obtain ⟨rest, hs, hd⟩ := s.layout_rest
  rw [h] at hd
  have hopened {o : Opened} (ha : a ∈ o.args) : a <:+: o.render := by
    obtain ⟨before, after, hargs⟩ := List.append_of_mem ha
    refine ⟨Token.lt :: o.fence ++ before.flatMap (· ++ o.fence),
      o.fence ++ after.flatMap (· ++ o.fence) ++ o.pendingText, ?_⟩
    simp [Opened.render, hargs]
  have hrest : a <:+: rest := by
    cases d with
    | shortClose o =>
      obtain ⟨⟨after, rfl⟩, -⟩ := hd
      exact (hopened ha).trans (List.prefix_append _ _).isInfix
    | missingClose o =>
      obtain ⟨rfl, -⟩ := hd
      exact hopened ha
    | extraClose k => cases ha
  rw [hs]
  exact hrest.trans (List.suffix_append _ _).isInfix

end Bytes

namespace Layout.Scan

theorem foldl_ne_extraClose (ts : List Token) {s : Scan} {depth : Nat}
    (hf : s.phase.Follows depth) (hs : ∀ k, s.phase ≠ .broken (.extraClose k))
    (h : ∀ p ∈ Token.located depth ts, p.1 = 0 → p.2.closes = false) (k : Nat) :
    (ts.foldl step s).phase ≠ .broken (.extraClose k) := by
  induction ts generalizing s depth with
  | nil => exact hs k
  | cons t ts ih =>
    refine ih (step_follows t hf) ?_ fun p hp => h p (List.mem_cons_of_mem _ hp)
    intro k
    have ht := h (depth, t) List.mem_cons_self
    have hm := s.moves_step t
    generalize s.step t = s' at hm ⊢
    cases hm with
    | extra => cases ht hf
    | stopped => exact hs k
    | copy _ => exact nofun
    | opens => exact nofun
    | opened _ => exact nofun
    | closed _ => exact nofun
    | short _ => exact nofun

end Layout.Scan

theorem Bytes.Balanced.defect {s : Bytes} (h : s.Balanced) (hd : s.layout.defect = some d) :
    ∃ o, d = .shortClose o := by
  cases d with
  | shortClose o => exact ⟨o, rfl⟩
  | missingClose o => exact absurd hd (layout_defect_ne_missingClose h.complete o)
  | extraClose k =>
    have hs : s.scan.phase ≠ .broken (.extraClose k) :=
      Layout.Scan.foldl_ne_extraClose (s := {}) s.tokens rfl (fun _ => nofun) h.closing k
    rw [layout_eq_finish, Layout.Scan.finish] at hd
    cases hp : s.scan.phase with
    | outside => simp [hp] at hd
    | inside o => simp [hp] at hd
    | broken d =>
      obtain rfl : d = .extraClose k := by simpa [hp] using hd
      exact absurd hp hs

end TildeText
