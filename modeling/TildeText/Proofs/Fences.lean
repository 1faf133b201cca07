import TildeText.Builtin.Standard
import TildeText.Proofs.Lossless
import TildeText.Proofs.Placement
import TildeText.Proofs.Runs

namespace TildeText

namespace Token

def located (depth : Nat) : List Token → List (Nat × Token)
  | [] => []
  | t :: ts => (depth, t) :: located (t.depthAfter depth) ts

def closes : Token → Bool
  | .run _ closes => closes
  | _ => false

def runLength : Token → Nat
  | .run n _ => n
  | _ => 0

def leftover (n : Nat) : List Token := if n = 0 then [] else [.run n false]

theorem located_append (depth : Nat) (ts us : List Token) :
    located depth (ts ++ us) = located depth ts ++ located (ts.foldl depthAfter depth) us := by
  induction ts generalizing depth with
  | nil => rfl
  | cons t ts ih => simp [located, ih]

@[simp] theorem foldl_depthAfter_leftover (n depth : Nat) :
    (leftover n).foldl depthAfter depth = depth := by
  rw [leftover]
  split <;> rfl

@[simp] theorem reverse_leftover (n : Nat) : (leftover n).reverse = leftover n := by
  rw [leftover]
  split <;> rfl

theorem beforeTilde_eq (ts : List Token) :
    ∃ n closes us, beforeTilde ts = .run (n + 1) closes :: us := by
  fun_cases beforeTilde ts <;> exact ⟨_, _, _, rfl⟩

end Token

/-- Every invocation that is opened is closed, and every close closes one. -/
structure Bytes.Balanced (s : Bytes) : Prop where
  complete : s.isComplete = true
  closing : ∀ p ∈ Token.located 0 s.tokens, p.1 = 0 → p.2.closes = false

/-- A text that can be an argument between fences of a width. -/
structure Bytes.Fits (width : Nat) (s : Bytes) : Prop where
  balanced : s.Balanced
  narrow : ∀ p ∈ Token.located 0 s.tokens, p.1 = 0 → p.2.runLength < width
  ending : s.getLast? ≠ some Token.lt ∧ s.getLast? ≠ some Token.tilde

instance (s : Bytes) : Decidable s.Balanced :=
  decidable_of_iff (_ ∧ _) ⟨fun h => ⟨h.1, h.2⟩, fun h => ⟨h.complete, h.closing⟩⟩

instance (width : Nat) (s : Bytes) : Decidable (s.Fits width) :=
  decidable_of_iff (_ ∧ _ ∧ _)
    ⟨fun h => ⟨h.1, h.2.1, h.2.2⟩, fun h => ⟨h.balanced, h.narrow, h.ending⟩⟩

/-- An invocation whose arguments leave room for its fence. -/
structure Call.WellFenced (c : Call) : Prop where
  width : 0 < c.width
  fits : ∀ a ∈ c.args, a.Fits c.width
  name : ∃ name rest, c.args = name :: rest ∧ name ≠ [] ∧ name.head? ≠ some Token.tilde ∧
    ∀ a ∈ rest, a.head? ≠ some Token.gt

namespace Bytes

abbrev tildes (n : Nat) : Bytes := List.replicate n Token.tilde

theorem tildes_mul_append (j w : Nat) (s : Bytes) :
    tildes (j * w) ++ (tildes w ++ s) = tildes ((j + 1) * w) ++ s := by
  rw [← List.append_assoc, List.replicate_append_replicate, Nat.succ_mul]

theorem tokens_tilde (s : Bytes) : tokens (Token.tilde :: s) = Token.beforeTilde s.tokens := rfl

theorem tokens_lt (s : Bytes) : tokens (Token.lt :: s) = Token.beforeLt s.tokens := rfl

theorem tokens_tildes {s : Bytes} (h : tokens (Token.tilde :: s) = .run (r + 1) closes :: ts)
    {n : Nat} (hn : 0 < n) : tokens (tildes n ++ s) = .run (n + r) closes :: ts := by
  induction n with
  | zero => cases hn
  | succ n ih =>
    cases n with
    | zero => simpa [Nat.add_comm] using h
    | succ n =>
      rw [tildes, List.replicate_succ, List.cons_append, tokens_tilde, ih (Nat.succ_pos n),
        Token.beforeTilde, Nat.add_right_comm]

theorem tokens_tildes_gt {n : Nat} (hn : 0 < n) (s : Bytes) :
    tokens (tildes n ++ Token.gt :: s) = .run n true :: s.tokens :=
  tokens_tildes (r := 0) rfl hn

theorem tokens_fence {s : Bytes} (h : s.head? ≠ some Token.tilde) {w : Nat} (hw : 0 < w) :
    tokens (Token.lt :: (tildes w ++ s)) = .fence w :: s.tokens := by
  rw [tokens_lt]
  by_cases hg : s.head? = some Token.gt
  · obtain ⟨s, rfl⟩ := List.head?_eq_some_iff.1 hg
    rw [tokens_tildes_gt hw]
    rfl
  · have hone := Token.beforeTilde_of_not_takes _ (not_takesTilde_of_head s h hg)
    rw [tokens_tildes (r := 0) hone hw]
    rfl

namespace Fits

variable {width : Nat} {s : Bytes}

theorem not_fuse (h : s.Fits width) (t : Bytes) : ¬ s.Fuse t := by
  intro hf
  rcases hf.1 with hl | ht
  · exact h.ending.1 hl
  · exact h.ending.2 ht

theorem tokens_tilde_cons (h : s.Fits width) (hw : 0 < width) (hg : s.head? ≠ some Token.gt) :
    ∃ r ts, r < width ∧ s.tokens = Token.leftover r ++ ts ∧
      tokens (Token.tilde :: s) = .run (r + 1) false :: ts := by
  by_cases ht : s.head? = some Token.tilde
  · obtain ⟨s, rfl⟩ := List.head?_eq_some_iff.1 ht
    obtain ⟨n, closes, ts, hts⟩ := Token.beforeTilde_eq (tokens s)
    have htokens : tokens (Token.tilde :: s) = .run (n + 1) closes :: ts := hts
    have hmem : (0, .run (n + 1) closes) ∈ Token.located 0 (tokens (Token.tilde :: s)) := by
      rw [htokens]
      exact List.mem_cons_self
    obtain rfl : closes = false := h.balanced.closing _ hmem rfl
    refine ⟨n + 1, ts, h.narrow _ hmem rfl, htokens, ?_⟩
    rw [tokens_tilde, htokens, Token.beforeTilde]
  · exact ⟨0, s.tokens, hw, rfl,
      Token.beforeTilde_of_not_takes _ (not_takesTilde_of_head s ht hg)⟩

theorem tokens_fence_append (h : s.Fits width) (hw : 0 < width) (hne : s ≠ [])
    (hg : s.head? ≠ some Token.gt) :
    ∃ r ts, r < width ∧ s.tokens = Token.leftover r ++ ts ∧ ∀ n t, 0 < n →
      tokens (tildes n ++ (s ++ t)) = .run (n + r) false :: (ts ++ t.tokens) := by
  obtain ⟨r, ts, hr, hs, htilde⟩ := h.tokens_tilde_cons hw hg
  refine ⟨r, ts, hr, hs, fun n t hn => tokens_tildes ?_ hn⟩
  have hfuse : ¬ Fuse (Token.tilde :: s) t := by
    have hlast : (Token.tilde :: s).getLast? = s.getLast? := by
      obtain ⟨b, s, rfl⟩ := List.exists_cons_of_ne_nil hne
      exact List.getLast?_cons_cons
    have hs := h.not_fuse t
    rwa [Fuse, ← hlast] at hs
  rw [← List.cons_append, tokens_append _ _ hfuse, htilde, List.cons_append]

end Fits

end Bytes

namespace Opened

theorem split_fences (o : Opened) (j : Nat) {r : Nat} (hr : r < o.width) :
    o.split ((j + 1) * o.width + r) =
      { o with
        ended := List.replicate j [] ++ o.pendingText :: o.ended
        pending := Token.leftover r } := by
  have hw : 0 < o.width := Nat.zero_lt_of_lt hr
  have hdiv : ((j + 1) * o.width + r) / o.width = j + 1 := by
    rw [Nat.mul_comm, Nat.mul_add_div hw, Nat.div_eq_of_lt hr, Nat.add_zero]
  have hmod : ((j + 1) * o.width + r) % o.width = r := by
    rw [Nat.mul_comm, Nat.mul_add_mod, Nat.mod_eq_of_lt hr]
  have hle : ¬ (j + 1) * o.width + r < o.width := by
    rw [Nat.succ_mul]
    omega
  rw [split, if_neg hle, hdiv, hmod, Nat.add_sub_cancel, Token.leftover]

theorem feed_kept {o : Opened} {t : Token}
    (h : o.inner = 0 → t.closes = false ∧ t.runLength < o.width) :
    o.feed t = .opened { o.keep t with inner := t.depthAfter o.inner } := by
  cases t with
  | byte b => rfl
  | fence n => cases n <;> rfl
  | run n closes =>
    obtain ⟨offset, width, ended, pending, inner⟩ := o
    cases inner with
    | zero =>
      obtain ⟨rfl, hn⟩ : closes = false ∧ n < width := h rfl
      simp [feed, split, hn, keep, Token.depthAfter]
    | succ k => cases closes <;> rfl

end Opened

namespace Layout.Scan

theorem foldl_kept (ts : List Token) {o : Opened}
    (h : ∀ p ∈ Token.located o.inner ts, p.1 = 0 → p.2.closes = false ∧ p.2.runLength < o.width)
    (done : List Segment) (k : Nat) :
    ∃ k', ts.foldl step ⟨done, k, .inside o⟩ = ⟨done, k', .inside { o with
      pending := ts.reverse ++ o.pending
      inner := ts.foldl Token.depthAfter o.inner }⟩ := by
  induction ts generalizing o k with
  | nil => exact ⟨k, rfl⟩
  | cons t ts ih =>
    have hfeed := Opened.feed_kept (h (o.inner, t) List.mem_cons_self)
    obtain ⟨k', hk'⟩ := @ih { o.keep t with inner := t.depthAfter o.inner }
      (fun p hp => h p (List.mem_cons_of_mem _ hp)) (k + t.size)
    refine ⟨k', ?_⟩
    rw [List.foldl_cons]
    simp only [step, hfeed]
    rw [hk']
    simp [Opened.keep]

theorem foldl_argument {o : Opened} {s : Bytes} (h : s.Fits o.width) (ho : o.inner = 0)
    (hs : s.tokens = o.pending.reverse ++ ts) (hp : o.pending = Token.leftover r)
    (done : List Segment) (k : Nat) :
    ∃ k', ts.foldl step ⟨done, k, .inside o⟩ =
      ⟨done, k', .inside { o with pending := s.tokens.reverse }⟩ := by
  rw [hp, Token.reverse_leftover] at hs
  have hlocated : ∀ p ∈ Token.located o.inner ts, p ∈ Token.located 0 s.tokens := by
    intro p hmem
    rw [hs, Token.located_append, Token.foldl_depthAfter_leftover, ← ho]
    exact List.mem_append_right _ hmem
  have hdepth : ts.foldl Token.depthAfter o.inner = o.inner := by
    have hc := (Bytes.isComplete_iff s).1 h.balanced.complete
    rwa [hs, List.foldl_append, Token.foldl_depthAfter_leftover, ← ho] at hc
  obtain ⟨k', hk'⟩ := foldl_kept ts (fun p hmem hp => ⟨h.balanced.closing p (hlocated p hmem) hp,
    h.narrow p (hlocated p hmem) hp⟩) done k
  refine ⟨k', ?_⟩
  rw [hk', hdepth, hs, hp, List.reverse_append, Token.reverse_leftover]

end Layout.Scan

def Bytes.closing (width : Nat) : List Bytes → Bytes
  | [] => tildes width ++ [Token.gt]
  | a :: rest => tildes width ++ (a ++ closing width rest)

theorem Bytes.closing_eq (width : Nat) (rest : List Bytes) :
    closing width rest = tildes width ++ (rest.flatMap (· ++ tildes width) ++ [Token.gt]) := by
  induction rest with
  | nil => rfl
  | cons a rest ih => simp [closing, ih]

theorem Call.render_eq {c : Call} (h : c.args = name :: rest) :
    c.render = Token.lt :: (Bytes.tildes c.width ++ (name ++ Bytes.closing c.width rest)) := by
  have hj := Bytes.join_append (List.cons_ne_nil name rest) (Bytes.tildes c.width)
  rw [render, h, Bytes.closing_eq]
  simp only [List.cons_append, List.append_assoc]
  rw [← List.append_assoc (Bytes.join _ _), hj]
  simp

theorem Layout.Scan.foldl_closing (rest : List Bytes) {o : Opened} (ho : o.inner = 0)
    (hw : 0 < o.width) (hfits : ∀ a ∈ rest, a.Fits o.width)
    (hgt : ∀ a ∈ rest, a.head? ≠ some Token.gt) (j : Nat) (done : List Segment) (k : Nat) :
    ∃ k', (Bytes.tokens (Bytes.tildes (j * o.width) ++ Bytes.closing o.width rest)).foldl step
        ⟨done, k, .inside o⟩ =
      ⟨.call ⟨o.offset, o.width, o.args ++ o.pendingText :: (List.replicate j [] ++ rest)⟩ :: done,
        k', .outside⟩ := by
  -- fences of empty arguments fuse into one run, so the induction has to count them
  induction rest generalizing o j k with
  | nil =>
    have hpos : 0 < (j + 1) * o.width := Nat.mul_pos (Nat.succ_pos j) hw
    have hsplit := o.split_fences j hw
    rw [Nat.add_zero] at hsplit
    rw [Bytes.closing, Bytes.tildes_mul_append, Bytes.tokens_tildes_gt hpos]
    refine ⟨k + ((j + 1) * o.width + 1), ?_⟩
    simp only [Bytes.tokens_nil, List.foldl_cons, List.foldl_nil, step, Opened.feed, ho,
      Nat.mul_mod_left, hsplit]
    simp [Opened.call, Opened.args, Token.size]
  | cons a rest ih =>
    have hrest := fun b hb => hfits b (List.mem_cons_of_mem a hb)
    have hgt' := fun b hb => hgt b (List.mem_cons_of_mem a hb)
    rw [Bytes.closing, Bytes.tildes_mul_append]
    by_cases hne : a = []
    · -- an empty argument is only one more fence
      subst hne
      obtain ⟨k', hk'⟩ := ih ho hw hrest hgt' (j + 1) k
      refine ⟨k', ?_⟩
      rw [List.nil_append, hk', List.replicate_succ', List.append_assoc, List.singleton_append]
    · -- the run ends what is pending and leaves over the tildes that the argument starts with
      have hpos : 0 < (j + 1) * o.width := Nat.mul_pos (Nat.succ_pos j) hw
      have ha := hfits a List.mem_cons_self
      obtain ⟨r, ts, hr, hs, htokens⟩ :=
        ha.tokens_fence_append hw hne (hgt a List.mem_cons_self)
      let o₁ : Opened := { o with
        ended := List.replicate j [] ++ o.pendingText :: o.ended
        pending := Token.leftover r }
      have hstep : step ⟨done, k, .inside o⟩ (.run ((j + 1) * o.width + r) false) =
          ⟨done, k + ((j + 1) * o.width + r), .inside o₁⟩ := by
        simp only [step, Opened.feed, ho, Bool.not_false, if_true, o.split_fences j hr]
        simp [Token.size, o₁, ho]
      have hs₁ : a.tokens = o₁.pending.reverse ++ ts := by
        rw [hs, Token.reverse_leftover]
      obtain ⟨k₁, hk₁⟩ := foldl_argument (o := o₁) ha ho hs₁ rfl done (k + ((j + 1) * o.width + r))
      obtain ⟨k', hk'⟩ := @ih { o₁ with pending := a.tokens.reverse } ho hw hrest hgt' 0 k₁
      refine ⟨k', ?_⟩
      rw [htokens _ _ hpos, List.foldl_cons, List.foldl_append, hstep, hk₁]
      simpa [o₁, Opened.args, Opened.pendingText] using hk'

def Call.atStart (c : Call) : Call := { c with offset := c.width + 1 }

theorem Call.WellFenced.layout_render {c : Call} (h : c.WellFenced) :
    c.render.layout = ⟨[.call c.atStart], none⟩ := by
  obtain ⟨name, rest, hargs, hne, htilde, hgt⟩ := h.name
  have hname : name.Fits c.width := h.fits name (by simp [hargs])
  have hrest : ∀ a ∈ rest, a.Fits c.width := fun a ha => h.fits a (by simp [hargs, ha])
  have hhead : (name ++ Bytes.closing c.width rest).head? ≠ some Token.tilde := by
    obtain ⟨b, name, rfl⟩ := List.exists_cons_of_ne_nil hne
    exact htilde
  let o : Opened := { offset := c.width + 1, width := c.width }
  have hopen : Layout.Scan.step {} (.fence c.width) = ⟨[], c.width + 1, .inside o⟩ := by
    obtain ⟨w, hw⟩ := Nat.exists_eq_add_of_lt h.width
    rw [Nat.zero_add] at hw
    simp [Layout.Scan.step, o, hw, Token.size]
  have hnone : name.tokens = o.pending.reverse ++ name.tokens := rfl
  obtain ⟨k, hk⟩ := Layout.Scan.foldl_argument (r := 0) hname rfl hnone rfl [] (c.width + 1)
  obtain ⟨k', hk'⟩ := Layout.Scan.foldl_closing rest
    (o := { o with pending := name.tokens.reverse }) rfl h.width hrest hgt 0 [] k
  have hscan : c.render.scan = ⟨[.call c.atStart], k', .outside⟩ := by
    rw [Bytes.scan, c.render_eq hargs, Bytes.tokens_fence hhead h.width,
      Bytes.tokens_append _ _ (hname.not_fuse _), List.foldl_cons, List.foldl_append, hopen, hk]
    simpa [o, Opened.args, Opened.pendingText, Call.atStart, hargs] using hk'
  rw [Bytes.layout_eq_finish, hscan]
  rfl

theorem Call.not_fuse_render (c : Call) (s : Bytes) : ¬ c.render.Fuse s := by
  have hlast : c.render.getLast? = some Token.gt := List.getLast?_concat
  rw [Bytes.Fuse, hlast]
  rintro ⟨h | h, -⟩ <;> cases h

theorem Call.WellFenced.isComplete_render {c : Call} (h : c.WellFenced) :
    c.render.isComplete = true := by
  cases hc : c.render.isComplete with
  | true => rfl
  | false =>
    obtain ⟨d, hd⟩ := Bytes.layout_defect_of_not_isComplete hc
    rw [h.layout_render] at hd
    cases hd

section

variable {c : Call} (registry : Registry) (n : Nat) (name : Bytes) (m : Machine)

theorem Call.WellFenced.eval_eq (h : c.WellFenced) :
    eval registry (n + 1) ⟨name, c.render⟩ m =
      Invocation.carryOut registry n (eval registry n) ⟨name, c.render⟩ c.atStart m := by
  rw [eval, h.layout_render, Layout.run_of_no_defect rfl]
  simp only [Segment.runAll]
  cases Invocation.carryOut registry n (eval registry n) ⟨name, c.render⟩ c.atStart m <;> rfl

theorem Call.WellFenced.eval_untraced (h : c.WellFenced) {c' : Call} (h' : c'.WellFenced)
    (hargs : c.args = c'.args) (name' : Bytes) :
    (eval registry n ⟨name, c.render⟩ m).untraced =
      (eval registry n ⟨name', c'.render⟩ m).untraced := by
  cases n with
  | zero => rfl
  | succ n =>
    rw [eval, eval, h.layout_render, h'.layout_render]
    refine Layout.run_untraced registry n m (.call hargs ⟨?_, rfl⟩ .nil) .none
    simp [Call.frame, Call.atStart, Frame.ofTexts, hargs]

theorem Invocation.carryOut_literal {src : Source} (h : c.args = utf8 "literal" :: rest) :
    carryOut .standard (n + 1) (eval .standard (n + 1)) src c m =
      .done () (m.write (rest.head?.getD [])) := by
  obtain ⟨offset, width, args⟩ := c
  obtain rfl : args = _ := h
  cases rest with
  | nil => rfl
  | cons a rest => rfl

end

/-- A well fenced invocation, written out, is read as the same invocation. Evaluating the text is
carrying the invocation out, with the arguments as they were and none of them evaluated. So the
width of the fence matters only to where a fault is met, and any text that can be an argument can
be written as it is. -/
theorem eval_wellFenced (c : Call) (h : c.WellFenced) :
    c.render.layout = ⟨[.call c.atStart], none⟩ ∧
    (∀ src, (c.atStart.frame src).slots = c.args.map fun a => { text := some a }) ∧
    (∀ registry n name m, eval registry (n + 1) ⟨name, c.render⟩ m =
      Invocation.carryOut registry n (eval registry n) ⟨name, c.render⟩ c.atStart m) ∧
    (∀ c' : Call, c'.WellFenced → c.args = c'.args → ∀ registry n name name' m,
      (eval registry n ⟨name, c.render⟩ m).untraced =
        (eval registry n ⟨name', c'.render⟩ m).untraced) ∧
    (∀ rest, c.args = utf8 "literal" :: rest → ∀ n name m,
      eval .standard (n + 2) ⟨name, c.render⟩ m = .done () (m.write (rest.head?.getD []))) := by
  refine ⟨h.layout_render, fun src => rfl, fun registry n name m => h.eval_eq registry n name m,
    fun c' h' hargs registry n name name' m => h.eval_untraced registry n name m h' hargs name', ?_⟩
  intro rest hargs n name m
  rw [h.eval_eq]
  exact Invocation.carryOut_literal n m hargs

def Call.nested (width : Nat) : Call :=
  ⟨0, width, [utf8 "literal", utf8 "~~a<~b~~~~c~>~d", [], utf8 "e"]⟩

theorem eval_wellFenced_nested :
    (Call.nested 3).WellFenced ∧ (Call.nested 5).WellFenced ∧
    (Call.nested 3).render = utf8 "<~~~literal~~~~~a<~b~~~~c~>~d~~~~~~e~~~>" ∧
    (∀ n name m, eval .standard (n + 2) ⟨name, (Call.nested 3).render⟩ m =
      .done () (m.write (utf8 "~~a<~b~~~~c~>~d"))) ∧
    ∀ registry n name name' m, (eval registry n ⟨name, (Call.nested 3).render⟩ m).untraced =
      (eval registry n ⟨name', (Call.nested 5).render⟩ m).untraced := by
  have hname : utf8 "literal" ≠ [] ∧ (utf8 "literal").head? ≠ some Token.tilde ∧
      ∀ a ∈ [utf8 "~~a<~b~~~~c~>~d", [], utf8 "e"], a.head? ≠ some Token.gt := by decide
  have h₃ : (Call.nested 3).WellFenced := ⟨by decide, by decide, _, _, rfl, hname⟩
  have h₅ : (Call.nested 5).WellFenced := ⟨by decide, by decide, _, _, rfl, hname⟩
  have h := eval_wellFenced (Call.nested 3) h₃
  exact ⟨h₃, h₅, by decide, h.2.2.2.2 _ rfl, h.2.2.2.1 (Call.nested 5) h₅ rfl⟩

end TildeText
