import TildeText.Proofs.Lines
import TildeText.Proofs.Lossless

namespace TildeText

def Token.FenceAt (ts : List Token) (offset width : Nat) : Prop :=
  ∃ before after, ts = before ++ .fence width :: after ∧ 0 < width ∧
    offset = (spellAll before).length + (width + 1)

theorem Token.FenceAt.append {ts : List Token} (h : FenceAt ts offset width) (us : List Token) :
    FenceAt (ts ++ us) offset width := by
  obtain ⟨before, after, rfl, hw, hk⟩ := h
  exact ⟨before, after ++ us, by simp, hw, hk⟩

def Opened.Next.opening : Opened.Next → Nat × Nat
  | .opened o | .short o => (o.offset, o.width)
  | .closed c => (c.offset, c.width)

theorem Opened.Takes.opening_eq {o : Opened} (h : o.Takes t next) :
    next.opening = (o.offset, o.width) := by
  cases h with
  | keep _ _ => rfl
  | split _ => simp [Next.opening]
  | close _ _ => simp [Next.opening, call]
  | short _ _ => simp [Next.opening]

theorem Opened.Takes.fenceAt {o : Opened} {ts : List Token} (h : o.Takes t next)
    (ho : Token.FenceAt ts o.offset o.width) :
    Token.FenceAt (ts ++ [t]) next.opening.1 next.opening.2 := by
  rw [h.opening_eq]
  exact ho.append [t]

namespace Layout

def Phase.Finds (ts : List Token) : Phase → Prop
  | .inside o | .broken (.shortClose o) | .broken (.missingClose o) =>
    Token.FenceAt ts o.offset o.width
  | .outside | .broken (.extraClose _) => True

theorem Phase.Finds.append {ts : List Token} {phase : Phase} (h : phase.Finds ts)
    (us : List Token) : phase.Finds (ts ++ us) := by
  cases phase with
  | outside => trivial
  | inside o => exact Token.FenceAt.append h us
  | broken d =>
    cases d with
    | shortClose o => exact Token.FenceAt.append h us
    | missingClose o => exact Token.FenceAt.append h us
    | extraClose k => trivial

namespace Scan

structure Finds (s : Scan) (ts : List Token) : Prop where
  calls : ∀ c, .call c ∈ s.segments → Token.FenceAt ts c.offset c.width
  phase : s.phase.Finds ts
  offset : (∀ d, s.phase ≠ .broken d) → s.offset = (Token.spellAll ts).length

theorem step_finds {s : Scan} {ts : List Token} (h : s.Finds ts) (t : Token) :
    (s.step t).Finds (ts ++ [t]) := by
  have hm := s.moves_step t
  generalize s.step t = s' at hm ⊢
  obtain ⟨hcalls, hphase, hoffset⟩ := h
  have hkept : ∀ c, .call c ∈ s.segments → Token.FenceAt (ts ++ [t]) c.offset c.width :=
    fun c hc => (hcalls c hc).append [t]
  have hlength : (Token.spellAll (ts ++ [t])).length = (Token.spellAll ts).length + t.size := by
    simp [Token.spellAll]
  cases hm with
  | copy _ => exact ⟨by simpa using hkept, trivial, fun _ => by rw [hlength, ← hoffset (by simp)]⟩
  | @opens done k n =>
    have hk : k = (Token.spellAll ts).length := hoffset (by simp)
    refine ⟨hkept, ⟨ts, [], rfl, Nat.succ_pos n, congrArg (· + (n + 2)) hk⟩, fun _ => ?_⟩
    rw [hlength, hk, Token.size]
  | extra => exact ⟨by simpa using hkept, trivial, fun h => absurd rfl (h _)⟩
  | opened ht =>
    exact ⟨hkept, ht.fenceAt hphase, fun _ => by rw [hlength, ← hoffset (by simp)]⟩
  | closed ht =>
    refine ⟨fun c hc => ?_, trivial, fun _ => by rw [hlength, ← hoffset (by simp)]⟩
    rcases List.mem_cons.1 hc with hc | hc
    · cases hc
      exact ht.fenceAt hphase
    · exact hkept c hc
  | short ht => exact ⟨hkept, ht.fenceAt hphase, fun h => absurd rfl (h _)⟩
  -- after a defect the scan goes on counting nothing, but its invocations stay where they are
  | stopped => exact ⟨hkept, Phase.Finds.append hphase [t], fun h => absurd rfl (h _)⟩

theorem foldl_finds (ts : List Token) {s : Scan} {done : List Token} (h : s.Finds done) :
    (ts.foldl step s).Finds (done ++ ts) := by
  induction ts generalizing s done with
  | nil => simpa using h
  | cons t ts ih => simpa using ih (step_finds h t)

end Scan

end Layout

theorem Bytes.drop_opening (before rest : Bytes) (w : Nat) :
    (before ++ Token.lt :: (List.replicate w Token.tilde ++ rest)).drop (before.length + (w + 1)) =
      rest := by
  have hlen : before.length + (w + 1) =
      (before ++ Token.lt :: List.replicate w Token.tilde).length := by simp
  rw [← List.cons_append, ← List.append_assoc, hlen, List.drop_left]

theorem Opened.StandsAt.args_follow {o : Opened} {before : Bytes} (h : o.StandsAt before.length)
    (more : Bytes) :
    o.args.flatMap (· ++ o.fence) <+: (before ++ o.render ++ more).drop o.offset := by
  have hs : before ++ o.render ++ more =
      before ++ Token.lt :: (List.replicate o.width Token.tilde ++
        (o.args.flatMap (· ++ o.fence) ++ (o.pendingText ++ more))) := by
    simp [Opened.render, Opened.fence]
  rw [hs, h.offset, Bytes.drop_opening]
  exact List.prefix_append _ _

theorem Call.StandsAt.args_follow {c : Call} {before : Bytes} (h : c.StandsAt before.length)
    (more : Bytes) :
    c.args.flatMap (· ++ List.replicate c.width Token.tilde) <+:
      (before ++ c.render ++ more).drop c.offset := by
  have hs : before ++ c.render ++ more =
      before ++ Token.lt :: (List.replicate c.width Token.tilde ++
        (c.args.flatMap (· ++ List.replicate c.width Token.tilde) ++ Token.gt :: more)) := by
    rw [← Bytes.join_append h.args (List.replicate c.width Token.tilde)]
    simp [Call.render]
  rw [hs, h.offset, Bytes.drop_opening]
  exact List.prefix_append _ _

namespace Bytes

inductive Invokes (s : Bytes) : Call → Prop
  | made (h : .call c ∈ s.layout.segments) : Invokes s c
  | short (h : s.layout.defect = some (.shortClose o)) : Invokes s o.call
  | unclosed (h : s.layout.defect = some (.missingClose o)) : Invokes s o.call

variable {s : Bytes} {c : Call}

theorem scan_finds (s : Bytes) : s.scan.Finds s.tokens := by
  have h : (({} : Layout.Scan)).Finds [] := ⟨by simp, trivial, fun _ => rfl⟩
  exact Layout.Scan.foldl_finds s.tokens h

theorem phase_of_defect {d : Defect} (h : s.layout.defect = some d) :
    s.scan.phase = .broken d ∨ ∃ o, s.scan.phase = .inside o ∧ d = .missingClose o := by
  rw [layout_eq_finish, Layout.Scan.finish] at h
  cases hp : s.scan.phase with
  | outside => simp [hp] at h
  | inside o => exact .inr ⟨o, rfl, by simpa [hp, eq_comm] using h⟩
  | broken d' =>
    obtain rfl : d' = d := by simpa [hp] using h
    exact .inl rfl

theorem Invokes.fenceAt (h : s.Invokes c) : Token.FenceAt s.tokens c.offset c.width := by
  have hphase := s.scan_finds.phase
  cases h with
  | made hc => exact s.scan_finds.calls c (List.mem_reverse.1 hc)
  | short hd =>
    rcases phase_of_defect hd with hp | ⟨o, -, ho⟩
    · rwa [hp] at hphase
    · cases ho
  | unclosed hd =>
    rcases phase_of_defect hd with hp | ⟨o, hp, ho⟩
    · rwa [hp] at hphase
    · cases ho
      rwa [hp] at hphase

theorem Invokes.args_follow (h : s.Invokes c) :
    c.args.flatMap (· ++ List.replicate c.width Token.tilde) <+: s.drop c.offset := by
  obtain ⟨rest, hrest, hleaves⟩ := s.layout_rest
  cases h with
  | made hc =>
    obtain ⟨before, after, hseg⟩ := List.append_of_mem hc
    have hs : s = Segment.renderAll before ++ c.render ++ (Segment.renderAll after ++ rest) := by
      rw [hseg] at hrest
      simpa [Segment.render] using hrest
    exact hs ▸ (call_standsAt hseg).args_follow _
  | short hd =>
    rw [hd] at hleaves
    obtain ⟨⟨after, rfl⟩, hk⟩ := hleaves
    rw [← List.append_assoc] at hrest
    exact hrest ▸ hk.args_follow _
  | unclosed hd =>
    rw [hd] at hleaves
    obtain ⟨rfl, hk⟩ := hleaves
    rw [← List.append_nil (_ ++ _)] at hrest
    exact hrest ▸ hk.args_follow _

end Bytes

/-- An invocation that stands in a source: what comes before its opening fence and what comes after
it. No tilde is left after the fence; the arguments follow, each with a fence of its own. -/
structure Opening where
  source : Source
  call : Call
  invokes : source.bytes.Invokes call
  before : Bytes
  after : Bytes
  text : source.bytes = before ++ Token.lt :: (List.replicate call.width Token.tilde ++ after)
  width : 0 < call.width
  whole : after.head? ≠ some Token.tilde
  args : call.args.flatMap (· ++ List.replicate call.width Token.tilde) <+: after

def Opening.index (o : Opening) : Nat := o.before.length + (o.call.width + 1)

theorem Opening.index_le (o : Opening) : o.index ≤ o.source.bytes.length := by
  rw [o.text, index]
  simp only [List.length_append, List.length_cons, List.length_replicate]
  omega

theorem Bytes.Invokes.exists_opening {src : Source} (h : src.bytes.Invokes c) :
    ∃ o : Opening, o.source = src ∧ o.call = c ∧ o.index = c.offset := by
  obtain ⟨before, after, hts, hw, hk⟩ := h.fenceAt
  have htext : src.bytes = Token.spellAll before ++
      Token.lt :: (List.replicate c.width Token.tilde ++ Token.spellAll after) := by
    rw [← src.bytes.spellAll_tokens, hts]
    simp [Token.spellAll, Token.spell]
  have hlexed : Token.Lexed (.fence c.width :: after) := (hts ▸ src.bytes.lexed_tokens).right
  have hafter : src.bytes.drop c.offset = Token.spellAll after := by
    rw [htext, hk, drop_opening]
  have hargs := h.args_follow
  rw [hafter] at hargs
  exact ⟨⟨src, c, h, _, _, htext, hw, hlexed.tail.head?_ne_tilde hlexed.next, hargs⟩, rfl, rfl,
    hk.symm⟩

end TildeText
