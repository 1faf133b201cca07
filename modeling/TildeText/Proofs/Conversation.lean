import TildeText.Console.Interactive
import TildeText.Proofs.Composition
import TildeText.Proofs.Evolution
import TildeText.Proofs.Hosts
import TildeText.Proofs.PlainText
import TildeText.Proofs.WriteOnly

/-!
Interactive evaluation, compared with evaluation of all the text at once. The lines of a session
come in chunks that are complete as soon as they can be, and a text may be cut at the end of a
complete line without a difference: what the chunks do one by one is what they do together.
-/

namespace TildeText

namespace Bytes

theorem le_of_isContinuation {b : UInt8} (h : isContinuation b = true) : 0x80 ≤ b := by
  rw [isContinuation, beq_iff_eq] at h
  rw [← h]
  exact UInt8.and_le_left

theorem decodeFront?_cons {b : UInt8} {rest : Bytes} {code more : Nat}
    (h : decodeFront? (b :: rest) = some (code, more)) :
    b < 0x80 ∧ code = b.toNat ∧ more = 0 ∨ 0x80 ≤ b ∧ ∀ c ∈ rest.take more, 0x80 ≤ c := by
  by_cases hb : b < 0x80
  · simp only [decodeFront?, if_pos hb, Option.some.injEq, Prod.mk.injEq] at h
    exact .inl ⟨hb, h.1.symm, h.2.symm⟩
  · refine .inr ⟨UInt8.not_lt.1 hb, ?_⟩
    rw [decodeFront?.eq_def] at h
    simp only [if_neg hb] at h
    -- the three lengths of a sequence, each with its continuation bytes checked
    split at h
    · split at h
      · simp only [Option.ite_none_right_eq_some, Option.some.injEq, Prod.mk.injEq] at h
        obtain ⟨hc, -, rfl⟩ := h
        simpa using le_of_isContinuation hc
      · cases h
    · split at h
      · split at h
        · simp only [Option.ite_none_right_eq_some, Option.some.injEq, Prod.mk.injEq,
            Bool.and_eq_true] at h
          obtain ⟨⟨⟨⟨hc, hd⟩, -⟩, -⟩, -, rfl⟩ := h
          simpa using ⟨le_of_isContinuation hc, le_of_isContinuation hd⟩
        · cases h
      · split at h
        · split at h
          · simp only [Option.ite_none_right_eq_some, Option.some.injEq, Prod.mk.injEq,
              Bool.and_eq_true] at h
            obtain ⟨⟨⟨⟨⟨hc, hd⟩, he⟩, -⟩, -⟩, -, rfl⟩ := h
            simpa using ⟨le_of_isContinuation hc, le_of_isContinuation hd, le_of_isContinuation he⟩
          · cases h
        · cases h

theorem isWhiteSpace_of_decodeAfter (s : Bytes) (skip : Nat) (hskip : ∀ b ∈ s.take skip, 0x80 ≤ b)
    (h : ∀ d ∈ decodeAfter skip s, ∃ code, d = .scalar code ∧ isWhiteSpace code = true) :
    ∀ b ∈ s, b < 0x80 → isWhiteSpace b.toNat = true := by
  induction s generalizing skip with
  | nil => simp
  | cons b s ih =>
    cases skip with
    | succ skip =>
      rw [List.take_succ_cons, List.forall_mem_cons] at hskip
      rw [decodeAfter] at h
      exact List.forall_mem_cons.2 ⟨fun hb => absurd hskip.1 (UInt8.not_le.2 hb), ih skip hskip.2 h⟩
    | zero =>
      rw [decodeAfter] at h
      split at h
      · rename_i code more hfront
        obtain ⟨⟨code', hcode, hwhite⟩, hrest⟩ := List.forall_mem_cons.1 h
        cases hcode
        rcases decodeFront?_cons hfront with ⟨-, rfl, rfl⟩ | ⟨hb, hmore⟩
        · exact List.forall_mem_cons.2 ⟨fun _ => hwhite, ih 0 (by simp) hrest⟩
        · refine List.forall_mem_cons.2 ⟨fun hlt => ?_, ih more hmore hrest⟩
          exact absurd hb (UInt8.not_le.2 hlt)
      · obtain ⟨⟨code, hcode, -⟩, -⟩ := List.forall_mem_cons.1 h
        cases hcode

theorem free_of_isWhite {s : Bytes} (h : isWhite s = true) : Token.lt ∉ s ∧ Token.tilde ∉ s := by
  have hdecoded : ∀ d ∈ decodeAfter 0 s, ∃ code, d = .scalar code ∧ isWhiteSpace code = true := by
    intro d hd
    have hd := List.all_eq_true.1 h d hd
    cases d with
    | scalar code => exact ⟨code, rfl, hd⟩
    | stray b => cases hd
  have hascii := isWhiteSpace_of_decodeAfter s 0 (by simp) hdecoded
  exact ⟨fun hl => absurd (hascii _ hl (by decide)) (by decide),
    fun ht => absurd (hascii _ ht (by decide)) (by decide)⟩

end Bytes

namespace Processor

/-- Chunks that are evaluated in a frame one after another, each into an output of its own, and all
of them without a failure. One of nothing but white space is passed over and stands for itself. -/
inductive Answers : Processor → Frame → List Bytes → List Bytes → Processor → Frame → Prop
  | nil : Answers p f [] [] p f
  | blank {p : Processor} {f : Frame} (hw : Bytes.isWhite chunk = true)
      (h : Answers p f chunks outs p' top) : Answers p f (chunk :: chunks) (chunk :: outs) p' top
  | chunk {p : Processor} {f : Frame} {m : Machine} (hw : Bytes.isWhite chunk = false)
      (he : p.eval f ⟨utf8 "[repl]", chunk⟩ = .done () m)
      (h : Answers (p.setState m.state) m.scope.frame chunks outs p' top) :
      Answers p f (chunk :: chunks) (m.out.toBytes :: outs) p' top

variable {p p' : Processor} {f f' top : Frame} {name : Bytes}

theorem eval_plain {s : Bytes} (h : s.IsPlain) (p : Processor) (f : Frame) (name : Bytes) :
    p.eval f ⟨name, s⟩ = .done () ⟨p.state, ⟨f, []⟩, ({} : Output).write s⟩ :=
  h.eval_eq p.registry (fuel - 1) name _

theorem eval_scope (h : p.eval f src = .done () m) : m.scope = ⟨m.scope.frame, []⟩ := by
  have hlength := eval_outer_length p.registry fuel src ⟨p.state, ⟨f, []⟩, {}⟩
  rw [← Processor.eval, h] at hlength
  rw [← List.length_eq_zero_iff.1 hlength]

theorem eval_named (h : p.eval f ⟨name, s⟩ = .done () m) (name' : Bytes) :
    p.eval f ⟨name', s⟩ = .done () m := by
  refine Outcome.eq_done_of_untraced ?_
  rw [Processor.eval, eval_named_untraced p.registry fuel _ name' name, ← Processor.eval, h]
  rfl

theorem eval_lines {a b : Bytes} {state state' : State} {out out' : Output}
    (ha : a.isComplete = true)
    (hfirst : p.eval f ⟨name, a⟩ = .done () ⟨state', ⟨f', []⟩, out⟩)
    (hrest : (p.setState state').eval f' ⟨name, b⟩ = .done () ⟨state, ⟨top, []⟩, out'⟩) :
    p.eval f ⟨name, a ++ ([0x0a] ++ b)⟩ =
      .done () ⟨state, ⟨top, []⟩, (out.write [0x0a]).write out'.toBytes⟩ := by
  have hfree : Token.lt ∉ ([0x0a] : Bytes) ∧ Token.tilde ∉ ([0x0a] : Bytes) := by decide
  have hfuse : ¬ a.Fuse ([0x0a] ++ b) := by simp [Bytes.Fuse, Token.tilde, Token.gt]
  have hend : TildeText.eval p.registry fuel ⟨name, [0x0a]⟩ ⟨state', ⟨f', []⟩, out⟩ =
      .done () ⟨state', ⟨f', []⟩, out.write [0x0a]⟩ :=
    (Bytes.isPlain_of_free hfree).eval_eq p.registry (fuel - 1) name _
  refine Outcome.eq_done_of_untraced ?_
  rw [Processor.eval, eval_append_of_done p.registry fuel name _ hfuse ha hfirst name,
    eval_append_of_done p.registry fuel name _ (Bytes.not_fuse_of_free hfree b) (by decide) hend
      name, eval_onto]
  rw [Processor.eval] at hrest
  exact congrArg (fun x => Outcome.untraced (Outcome.mapMachine _ x)) hrest

theorem Answers.join_cons {a o : Bytes} {state' : State} {out : Output}
    (h : Answers (p.setState state') f' chunks outs p' top) (ha : a.isComplete = true)
    (hfirst : p.eval f ⟨name, a⟩ = .done () ⟨state', ⟨f', []⟩, out⟩) (ho : out.toBytes = o)
    (hrest : ∃ out', (p.setState state').eval f' ⟨name, Bytes.join [0x0a] chunks⟩ =
      .done () ⟨p'.state, ⟨top, []⟩, out'⟩ ∧ out'.toBytes = Bytes.join [0x0a] outs) :
    ∃ out', p.eval f ⟨name, Bytes.join [0x0a] (a :: chunks)⟩ =
        .done () ⟨p'.state, ⟨top, []⟩, out'⟩ ∧
      out'.toBytes = Bytes.join [0x0a] (o :: outs) := by
  obtain ⟨out', hrest, hout⟩ := hrest
  -- there is no newline after the last one
  cases h with
  | nil =>
    rw [Bytes.join_singleton, Bytes.join_singleton]
    exact ⟨out, hfirst, ho⟩
  | blank hw h =>
    rw [Bytes.join_cons_cons, Bytes.join_cons_cons]
    exact ⟨_, eval_lines ha hfirst hrest, by simp [ho, hout]⟩
  | chunk hw he h =>
    rw [Bytes.join_cons_cons, Bytes.join_cons_cons]
    exact ⟨_, eval_lines ha hfirst hrest, by simp [ho, hout]⟩

theorem Answers.eval_join (h : Answers p f chunks outs p' top)
    (hc : ∀ chunk ∈ chunks, chunk.isComplete = true) (name : Bytes) :
    ∃ out, p.eval f ⟨name, Bytes.join [0x0a] chunks⟩ = .done () ⟨p'.state, ⟨top, []⟩, out⟩ ∧
      out.toBytes = Bytes.join [0x0a] outs := by
  induction h with
  | nil => exact ⟨_, eval_plain (Bytes.isPlain_of_free (by decide)) _ _ name, rfl⟩
  | @blank _ _ _ _ _ p f hw h ih =>
    obtain ⟨ha, hc⟩ := List.forall_mem_cons.1 hc
    have hfirst := eval_plain (Bytes.isPlain_of_free (Bytes.free_of_isWhite hw)) p f name
    exact h.join_cons ha hfirst (Output.toBytes_write _ _) (ih hc)
  | @chunk chunk _ _ _ _ p f m hw he h ih =>
    obtain ⟨ha, hc⟩ := List.forall_mem_cons.1 hc
    have hfirst : p.eval f ⟨name, chunk⟩ = .done () ⟨m.state, ⟨m.scope.frame, []⟩, m.out⟩ := by
      rw [eval_named he name, ← eval_scope he]
    exact h.join_cons ha hfirst rfl (ih hc)

end Processor

namespace Console

namespace Interactive

def textOf (lines : List Bytes) : Bytes := Bytes.join [0x0a] lines

/-- Lines of which no first ones make a complete text. -/
def IsOpen (lines : List Bytes) : Prop :=
  ∀ part, part <+: lines → part ≠ [] → (textOf part).isComplete = false

/-- Lines that make a complete text, and do so no sooner than with the last of them. -/
structure IsChunk (lines : List Bytes) : Prop where
  ne_nil : lines ≠ []
  complete : (textOf lines).isComplete = true
  soonest : ∀ part, part <+: lines → part ≠ [] → part ≠ lines → (textOf part).isComplete = false

def promptAt : Nat → Bytes
  | 0 => firstPrompt
  | _ + 1 => furtherPrompt

def promptsFor (n : Nat) : List Bytes := (List.range n).map promptAt

/-- The chunks that are read one after another, with the prompts for each, and the prompts of the
last reading, which the end of the input cuts short. -/
def readAll (lines : List Line) : List (List Bytes × Bytes) × List Bytes :=
  match h : readChunk [] lines with
  | (prompts, none) => ([], prompts)
  | (prompts, some (chunk, rest)) =>
    have : rest.length < lines.length := length_lt_of_readChunk h
    ((prompts, chunk) :: (readAll rest).1, (readAll rest).2)
termination_by lines.length

def chunks (lines : List Line) : List Bytes := (readAll lines).1.map Prod.snd

/-- The editor after the entries of some chunks, where white space has none. -/
def remember (e : LineEditor) (chunks : List Bytes) : LineEditor :=
  (chunks.filter fun c => !Bytes.isWhite c).foldl (fun e c => e.add (entry c)) e

theorem remember_cons (e : LineEditor) (chunk : Bytes) (chunks : List Bytes) :
    remember e (chunk :: chunks) = remember (remember e [chunk]) chunks := by
  rw [remember, ← List.singleton_append, List.filter_append, List.foldl_append]
  rfl

/-- What a session says that asks for chunks and shows their results, with what an editor makes of a
prompt. Nothing is shown of a chunk that is passed over. -/
def transcript (echo : Bytes → List Bytes) (readings : List (List Bytes × Bytes))
    (outs : List Bytes) : Bytes :=
  (List.zipWith (fun r out => (r.1.flatMap echo).flatten ++
    if Bytes.isWhite r.2 then [] else (shown out).flatten) readings outs).flatten

theorem readAll_of_end (h : readChunk [] lines = (prompts, none)) :
    readAll lines = ([], prompts) := by
  rw [readAll]
  split <;> simp_all

theorem readAll_of_chunk (h : readChunk [] lines = (prompts, some (chunk, rest))) :
    readAll lines = ((prompts, chunk) :: (readAll rest).1, (readAll rest).2) := by
  rw [readAll]
  split <;> simp_all

theorem readChunk_induction {P : List Line → Prop}
    (hend : ∀ lines prompts, readChunk [] lines = (prompts, none) → P lines)
    (hchunk : ∀ lines prompts chunk rest,
      readChunk [] lines = (prompts, some (chunk, rest)) → P rest → P lines)
    (lines : List Line) : P lines := by
  rcases h : readChunk [] lines with ⟨prompts, _ | ⟨chunk, rest⟩⟩
  · exact hend lines prompts h
  · have hlt : rest.length < lines.length := length_lt_of_readChunk h
    exact hchunk lines prompts chunk rest h (readChunk_induction hend hchunk rest)
termination_by lines.length

theorem isOpen_nil : IsOpen [] := fun _ h hne => absurd (List.prefix_nil.1 h) hne

theorem IsOpen.concat (h : IsOpen lines) (hl : (textOf (lines ++ [line])).isComplete = false) :
    IsOpen (lines ++ [line]) := by
  intro part hp hne
  rcases List.prefix_concat_iff.1 hp with rfl | hp
  · exact hl
  · exact h part hp hne

theorem IsOpen.isChunk (h : IsOpen lines) (hl : (textOf (lines ++ [line])).isComplete = true) :
    IsChunk (lines ++ [line]) where
  ne_nil := by simp
  complete := hl
  soonest part hp hne hall := h part ((List.prefix_concat_iff.1 hp).resolve_left hall) hne

theorem IsOpen.isEmpty (h : IsOpen held) : (textOf held).isEmpty = held.isEmpty := by
  cases held with
  | nil => rfl
  | cons line lines =>
    have hopen := h _ List.prefix_rfl (List.cons_ne_nil line lines)
    cases htext : textOf (line :: lines) with
    | nil => rw [htext] at hopen; exact absurd hopen (by decide)
    | cons b text => rfl

theorem textOf_concat (h : lines ≠ []) (line : Bytes) :
    textOf (lines ++ [line]) = textOf lines ++ 0x0a :: line := by
  induction lines with
  | nil => exact absurd rfl h
  | cons first lines ih =>
    cases lines with
    | nil => simp [textOf, Bytes.join_cons_cons, Bytes.join_singleton]
    | cons second lines =>
      have ih := ih (List.cons_ne_nil _ _)
      simp only [textOf, List.cons_append, Bytes.join_cons_cons] at ih ⊢
      simp [ih]

theorem IsOpen.gather (h : IsOpen held) (line : Bytes) :
    gather (textOf held) line = textOf (held ++ [line]) := by
  rw [Interactive.gather, h.isEmpty]
  cases held with
  | nil => exact (Bytes.join_singleton _ line).symm
  | cons first lines => exact (textOf_concat (List.cons_ne_nil _ _) line).symm

theorem IsOpen.prompt (h : IsOpen held) : prompt (textOf held) = promptAt held.length := by
  rw [Interactive.prompt, h.isEmpty]
  cases held <;> rfl

theorem promptsFor_succ (n : Nat) : promptsFor (n + 1) = promptsFor n ++ [promptAt n] := by
  simp [promptsFor, List.range_succ]

theorem readChunk_spec (lines : List Bytes) {held : List Bytes} (h : IsOpen held) :
    (∃ prompts, readChunk (textOf held) (lines.map .text) = (prompts, none) ∧
      promptsFor held.length ++ prompts = promptsFor ((held ++ lines).length + 1) ∧
      IsOpen (held ++ lines)) ∨
    ∃ prompts group rest, readChunk (textOf held) (lines.map .text) =
        (prompts, some (textOf group, rest.map .text)) ∧
      promptsFor held.length ++ prompts = promptsFor group.length ∧
      group ++ rest = held ++ lines ∧ IsChunk group := by
  induction lines generalizing held with
  | nil =>
    refine .inl ⟨_, rfl, ?_, by simpa using h⟩
    rw [h.prompt, List.append_nil, promptsFor_succ]
  | cons line lines ih =>
    rw [List.map_cons, readChunk, h.gather, h.prompt]
    cases hc : (textOf (held ++ [line])).isComplete with
    | true =>
      refine .inr ⟨_, held ++ [line], lines, rfl, ?_, by simp, h.isChunk hc⟩
      rw [List.length_append, List.length_singleton, promptsFor_succ]
    | false =>
      have hprompts (prompts : List Bytes) : promptsFor held.length ++
          promptAt held.length :: prompts = promptsFor (held ++ [line]).length ++ prompts := by
        rw [List.length_append, List.length_singleton, promptsFor_succ]
        simp
      rcases ih (h.concat hc) with
        ⟨prompts, hread, hp, hopen⟩ | ⟨prompts, group, rest, hread, hp, hlines, hgroup⟩
      · rw [hread]
        exact .inl ⟨_, rfl, by rw [hprompts, hp]; simp, by simpa using hopen⟩
      · rw [hread]
        exact .inr ⟨_, group, rest, rfl, by rw [hprompts, hp], by simpa using hlines, hgroup⟩

theorem readAll_spec (lines : List Bytes) :
    ∃ (groups : List (List Bytes)) (rest : List Bytes), groups.flatten ++ rest = lines ∧
      (∀ group ∈ groups, IsChunk group) ∧ IsOpen rest ∧ readAll (lines.map .text) =
        (groups.map fun group => (promptsFor group.length, textOf group),
          promptsFor (rest.length + 1)) := by
  rcases readChunk_spec lines isOpen_nil with
    ⟨prompts, hread, rfl, hopen⟩ | ⟨prompts, group, rest, hread, rfl, rfl, hgroup⟩
  · exact ⟨[], lines, rfl, by simp, hopen, readAll_of_end hread⟩
  · have hlt : rest.length < (group ++ rest).length := by
      rw [List.length_append]
      exact Nat.lt_add_of_pos_left (List.length_pos_iff.2 hgroup.ne_nil)
    obtain ⟨groups, last, hflat, hgroups, hlast, hlater⟩ := readAll_spec rest
    refine ⟨group :: groups, last, by simp [hflat], List.forall_mem_cons.2 ⟨hgroup, hgroups⟩,
      hlast, ?_⟩
    rw [readAll_of_chunk hread, hlater]
    rfl
termination_by lines.length

end Interactive

open Interactive

namespace Session

variable {s s' : Session}

structure Tells (s : Session) (text : Bytes) (s' : Session) : Prop where
  eq : s' = { s with terminal := s'.terminal }
  accepts : s.terminal.Accepts → s'.terminal.Accepts
  said : s.terminal.Accepts → s'.said = s.said ++ text

theorem Tells.trans (h : s.Tells text s₁) (h' : s₁.Tells text' s') :
    s.Tells (text ++ text') s' where
  eq := by rw [h'.eq, h.eq]
  accepts ha := h'.accepts (h.accepts ha)
  said ha := by rw [h'.said (h.accepts ha), h.said ha, List.append_assoc]

theorem tells_write (s : Session) (records : List Bytes) :
    s.Tells records.flatten { s with terminal := (s.terminal.write records).2 } where
  eq := rfl
  accepts h := h
  said h := h.toBytes_write records

theorem tells_say (s : Session) (text : Bytes) : s.Tells text (s.say text) := by
  have h := s.tells_write [text]
  rwa [List.flatten_singleton] at h

theorem tells_foldl_say (records : List Bytes) (s : Session) :
    s.Tells records.flatten (records.foldl say s) := by
  induction records generalizing s with
  | nil => exact ⟨rfl, id, fun _ => (List.append_nil _).symm⟩
  | cons record records ih => exact (s.tells_say record).trans (ih _)

theorem tells_foldl_ask (prompts : List Bytes) (s : Session) :
    s.Tells (prompts.flatMap s.editor.echo).flatten (prompts.foldl ask s) := by
  induction prompts generalizing s with
  | nil => exact ⟨rfl, id, fun _ => (List.append_nil _).symm⟩
  | cons prompt prompts ih =>
    rw [List.flatMap_cons, List.flatten_append]
    exact (s.tells_write (s.editor.echo prompt)).trans (ih _)

theorem prompts_exchanges (prompts : List Bytes) (s after : Session) :
    (s.exchanges prompts after).map Exchange.prompt = prompts := by
  induction prompts generalizing s with
  | nil => rfl
  | cons prompt prompts ih =>
    cases prompts with
    | nil => rfl
    | cons next prompts =>
      rw [exchanges, List.map_cons, ih]
      simp

theorem interact_of_end (h : readChunk [] lines = (prompts, none)) :
    s.interact lines = (.next ((prompts.foldl ask s).say [0x0a]),
      s.exchanges prompts ((prompts.foldl ask s).say [0x0a])) := by
  rw [interact]
  split <;> simp_all

theorem interact_of_chunk (h : readChunk [] lines = (prompts, some (chunk, rest)))
    (ha : (prompts.foldl ask s).answer chunk = .next after) :
    s.interact lines =
      ((after.interact rest).1, s.exchanges prompts after ++ (after.interact rest).2) := by
  rw [interact]
  split <;> simp_all

theorem answer_of_interact (h : readChunk [] lines = (prompts, some (chunk, rest)))
    {talk : List Exchange} (hi : s.interact lines = (.next s', talk)) :
    ∃ after, (prompts.foldl ask s).answer chunk = .next after := by
  cases ha : (prompts.foldl ask s).answer chunk with
  | next after => exact ⟨after, rfl⟩
  | _ =>
    rw [interact] at hi
    split at hi <;> simp_all

theorem editor_answer (h : s.answer chunk = .next s') :
    s'.editor = remember s.editor [chunk] := by
  rw [answer] at h
  split at h
  · rename_i hw
    cases h
    simp [remember, hw]
  · rename_i hw
    have hadd : remember s.editor [chunk] = s.editor.add (entry chunk) := by simp [remember, hw]
    rw [evalChunk] at h
    split at h
    · cases h
      rw [(tells_foldl_say _ _).eq, hadd]
      rfl
    · split at h
      · cases h
      · cases h
        exact hadd.symm
    · cases h

theorem interact_prompts (lines : List Line) {talk : List Exchange}
    (h : s.interact lines = (.next s', talk)) :
    talk.map Exchange.prompt = (readAll lines).1.flatMap Prod.fst ++ (readAll lines).2 ∧
      s'.editor = remember s.editor (chunks lines) := by
  induction lines using readChunk_induction generalizing s talk with
  | hend lines prompts hread =>
    rw [interact_of_end hread] at h
    cases h
    rw [chunks, readAll_of_end hread, prompts_exchanges,
      ((tells_foldl_ask prompts s).trans (tells_say _ _)).eq]
    exact ⟨rfl, rfl⟩
  | hchunk lines prompts chunk rest hread ih =>
    obtain ⟨after, ha⟩ := answer_of_interact hread h
    rw [interact_of_chunk hread ha] at h
    obtain ⟨hnext, htalk⟩ := Prod.mk.inj h
    obtain ⟨hprompts, heditor⟩ := ih (Prod.ext hnext rfl)
    have hfirst := editor_answer ha
    rw [(tells_foldl_ask prompts s).eq] at hfirst
    rw [chunks, readAll_of_chunk hread, ← htalk, List.map_append, prompts_exchanges, hprompts]
    refine ⟨by simp, ?_⟩
    rw [heditor, hfirst]
    exact (remember_cons s.editor chunk (chunks rest)).symm

theorem answer_of_answers {p : Processor} {top : Frame}
    (h : s.processor.Answers s.top (chunk :: later) outs p top) :
    ∃ after out outs', s.answer chunk = .next after ∧ outs = out :: outs' ∧
      after.processor.Answers after.top later outs' p top ∧ after.editor.echo = s.editor.echo ∧
      (s.terminal.Accepts → after.terminal.Accepts ∧
        after.said = s.said ++ if Bytes.isWhite chunk then [] else (shown out).flatten) := by
  cases h with
  | blank hw h =>
    refine ⟨s, chunk, _, by rw [answer, if_pos hw], rfl, h, rfl, fun ha => ⟨ha, ?_⟩⟩
    rw [if_pos hw, List.append_nil]
  | @chunk _ _ _ _ _ _ _ m hw he h =>
    have htells := tells_foldl_say (shown m.out.toBytes)
      ({ s with editor := s.editor.add (entry chunk) }.resume m)
    refine ⟨_, _, _, by rw [answer, if_neg (by simp [hw]), evalChunk, he], rfl, ?_, ?_, ?_⟩
    · rw [htells.eq]
      exact h
    · rw [htells.eq]
      rfl
    · refine fun ha => ⟨htells.accepts ha, ?_⟩
      rw [htells.said ha, if_neg (by simp [hw])]
      rfl

theorem interact_of_answers (lines : List Line) {p : Processor} {top : Frame}
    (h : s.processor.Answers s.top (chunks lines) outs p top) :
    ∃ s' talk, s.interact lines = (.next s', talk) ∧ s'.processor = p ∧ s'.top = top ∧
      (s.terminal.Accepts → s'.said = s.said ++ (transcript s.editor.echo (readAll lines).1 outs ++
        ((readAll lines).2.flatMap s.editor.echo).flatten ++ [0x0a])) := by
  induction lines using readChunk_induction generalizing s outs with
  | hend lines prompts hread =>
    rw [chunks, readAll_of_end hread] at h
    have htells := (tells_foldl_ask prompts s).trans (tells_say _ [0x0a])
    cases h
    refine ⟨_, _, interact_of_end hread, by rw [htells.eq], by rw [htells.eq], fun ha => ?_⟩
    rw [htells.said ha, readAll_of_end hread]
    rfl
  | hchunk lines prompts chunk rest hread ih =>
    have hasked := tells_foldl_ask prompts s
    rw [chunks, readAll_of_chunk hread, List.map_cons, ← chunks] at h
    have h : (prompts.foldl ask s).processor.Answers (prompts.foldl ask s).top
        (chunk :: chunks rest) outs p top := by
      rw [hasked.eq]
      exact h
    obtain ⟨after, out, outs, hanswer, rfl, hlater, hecho, hsaid⟩ := answer_of_answers h
    obtain ⟨s', talk, hnext, hp, htop, hsaid'⟩ := ih hlater
    rw [hasked.eq] at hecho
    refine ⟨s', _, by rw [interact_of_chunk hread hanswer, hnext], hp, htop, fun ha => ?_⟩
    obtain ⟨hafter, hshown⟩ := hsaid (hasked.accepts ha)
    rw [hsaid' hafter, hshown, hasked.said ha, hecho, readAll_of_chunk hread]
    simp [transcript]

end Session

/-- Lines that are read one by one come in chunks: complete texts, none of which is complete before
its last line, up to lines that never make one and are dropped. The further prompt is for the lines
of a chunk after its first. If all chunks are evaluated without a failure, the session comes to the
state and the top frame that one evaluation of all chunks comes to, each on lines of its own. What
this evaluation writes are the results of the chunks, on lines of their own as well, and what the
session says are the prompts with each result after those for its chunk. -/
theorem Session.interact_eq_eval (s : Session) (lines : List Bytes) :
    (∃ (groups : List (List Bytes)) (rest : List Bytes), groups.flatten ++ rest = lines ∧
      (∀ group ∈ groups, IsChunk group) ∧ IsOpen rest ∧
      readAll (lines.map .text) =
        (groups.map fun group => (promptsFor group.length, textOf group),
          promptsFor (rest.length + 1))) ∧
    (∀ s' talk, s.interact (lines.map .text) = (.next s', talk) →
      talk.map Exchange.prompt =
        (readAll (lines.map .text)).1.flatMap Prod.fst ++ (readAll (lines.map .text)).2 ∧
      s'.editor = remember s.editor (chunks (lines.map .text))) ∧
    ∀ outs p top, s.processor.Answers s.top (chunks (lines.map .text)) outs p top →
      (∃ s' talk, s.interact (lines.map .text) = (.next s', talk) ∧ s'.processor = p ∧
        s'.top = top ∧
        (s.terminal.Accepts → s'.said = s.said ++
          (transcript s.editor.echo (readAll (lines.map .text)).1 outs ++
            ((readAll (lines.map .text)).2.flatMap s.editor.echo).flatten ++ [0x0a]))) ∧
      ∀ name, ∃ out,
        s.processor.eval s.top ⟨name, Bytes.join [0x0a] (chunks (lines.map .text))⟩ =
          .done () ⟨p.state, ⟨top, []⟩, out⟩ ∧
        out.toBytes = Bytes.join [0x0a] outs := by
  have hspec := readAll_spec lines
  refine ⟨hspec, fun s' talk h => interact_prompts _ h, fun outs p top ha =>
    ⟨interact_of_answers _ ha, ha.eval_join fun text htext => ?_⟩⟩
  obtain ⟨groups, rest, -, hgroups, -, hread⟩ := hspec
  rw [chunks, hread] at htext
  simp only [List.map_map, List.mem_map, Function.comp_apply] at htext
  obtain ⟨group, hgroup, rfl⟩ := htext
  exact (hgroups group hgroup).complete

def rebindingLines : List Bytes :=
  [utf8 "a<~1~", utf8 "b~><", utf8 " ", utf8 "<~1~>", utf8 "<~"]

theorem Session.interact_eq_eval_rebinding :
    ∃ outs p top, ({} : Processor).Answers {} (chunks (rebindingLines.map .text)) outs p top ∧
      outs = [utf8 "a<", utf8 " ", utf8 "\nb"] ∧
      (∃ s' talk, ({ processor := {} } : Session).interact (rebindingLines.map .text) =
          (.next s', talk) ∧ s'.processor = p ∧ s'.top = top ∧
        s'.said = utf8 "tilton>   ...   a<\ntilton> tilton> \nb\ntilton>   ...   \n") ∧
      ∃ out, ({} : Processor).eval {}
          ⟨[], Bytes.join [0x0a] (chunks (rebindingLines.map .text))⟩ =
            .done () ⟨p.state, ⟨top, []⟩, out⟩ ∧
        out.toBytes = utf8 "a<\n \n\nb" := by
  have hread : readAll (rebindingLines.map .text) =
      ([(promptsFor 2, utf8 "a<~1~\nb~><"), (promptsFor 1, utf8 " "), (promptsFor 1, utf8 "<~1~>")],
        promptsFor 2) := by decide +kernel
  have hanswers : ∃ outs p top, ({} : Processor).Answers {}
      [utf8 "a<~1~\nb~><", utf8 " ", utf8 "<~1~>"] outs p top ∧
      outs = [utf8 "a<", utf8 " ", utf8 "\nb"] :=
    ⟨_, _, _, .chunk rfl rfl (.blank rfl (.chunk rfl rfl .nil)), rfl⟩
  obtain ⟨outs, p, top, ha, houts⟩ := hanswers
  have ha : ({} : Processor).Answers {} (chunks (rebindingLines.map .text)) outs p top := by
    rw [chunks, hread]
    exact ha
  obtain ⟨⟨s', talk, hinteract, hp, htop, hsaid⟩, heval⟩ :=
    (interact_eq_eval { processor := {} } rebindingLines).2.2 outs p top ha
  obtain ⟨out, hout, hbytes⟩ := heval []
  refine ⟨outs, p, top, ha, houts, ⟨s', talk, hinteract, hp, htop, ?_⟩, out, hout, ?_⟩
  · rw [hsaid fun _ _ => rfl, hread, houts]
    decide
  · rw [hbytes, houts]
    decide

end Console

end TildeText
