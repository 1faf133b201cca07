import TildeText.Eval
import TildeText.Proofs.Brackets
import TildeText.Proofs.Tokens

namespace TildeText

namespace Token

def isProper : Token → Bool
  | .run n _ => 0 < n
  | _ => true

theorem isProper_before {ts : List Token} (h : ∀ t ∈ ts, t.isProper = true) (b : UInt8) :
    ∀ t ∈ before b ts, t.isProper = true := by
  rw [before]
  split
  · fun_cases beforeTilde ts <;> simp_all [isProper]
  · split
    · fun_cases beforeLt ts <;> simp_all [isProper]
    · simpa [isProper] using h

end Token

theorem Bytes.isProper_tokens (s : Bytes) : ∀ t ∈ s.tokens, t.isProper = true := by
  induction s with
  | nil => simp
  | cons b s ih => exact Token.isProper_before ih b

theorem Bytes.join_singleton (separator s : Bytes) : join separator [s] = s := by
  simp [join]

theorem Bytes.join_cons_cons (separator s s' : Bytes) (rest : List Bytes) :
    join separator (s :: s' :: rest) = s ++ (separator ++ join separator (s' :: rest)) := by
  simp [join, List.intercalate]

theorem Bytes.join_append {texts : List Bytes} (h : texts ≠ []) (separator : Bytes) :
    join separator texts ++ separator = texts.flatMap (· ++ separator) := by
  induction texts with
  | nil => exact absurd rfl h
  | cons s rest ih =>
    cases rest with
    | nil => simp [join_singleton]
    | cons s' rest =>
      rw [join_cons_cons, List.append_assoc, List.append_assoc, ih (by simp)]
      simp

namespace Opened

def fence (o : Opened) : Bytes := List.replicate o.width Token.tilde

def render (o : Opened) : Bytes :=
  Token.lt :: o.fence ++ o.args.flatMap (· ++ o.fence) ++ o.pendingText

theorem render_keep (o : Opened) (t : Token) (k : Nat) :
    render { o.keep t with inner := k } = o.render ++ t.spell := by
  simp [render, fence, args, keep, pendingText, Token.spellAll]

theorem render_split (o : Opened) (n : Nat) (h : 0 < o.width) :
    (o.split n).render = o.render ++ List.replicate n Token.tilde := by
  rw [split]
  split
  · rw [show o.keep (.run n false) = { o.keep (.run n false) with inner := o.inner } from rfl,
      render_keep]
    simp [Token.spell]
  · rename_i hn
    -- the run is one fence, then those of the empty arguments, then what is left over
    have hpos : 1 ≤ n / o.width := Nat.div_pos (Nat.le_of_not_lt hn) h
    have hsum : n = o.width + ((n / o.width - 1) * o.width + n % o.width) := by
      have hdiv := Nat.div_add_mod n o.width
      have hmul : n / o.width * o.width = (n / o.width - 1) * o.width + o.width := by
        rw [← Nat.succ_mul, Nat.succ_eq_add_one, Nat.sub_add_cancel hpos]
      rw [Nat.mul_comm] at hdiv
      omega
    have hrest : Token.spellAll (List.reverse
        (if n % o.width = 0 then [] else [.run (n % o.width) false])) =
        List.replicate (n % o.width) Token.tilde := by
      by_cases hz : n % o.width = 0
      · rw [if_pos hz, hz]
        rfl
      · rw [if_neg hz]
        simp [Token.spell]
    have hrun : List.replicate n Token.tilde = List.replicate o.width Token.tilde ++
        (List.replicate ((n / o.width - 1) * o.width) Token.tilde ++
          List.replicate (n % o.width) Token.tilde) := by
      rw [List.replicate_append_replicate, List.replicate_append_replicate, ← hsum]
    rw [hrun]
    simp only [render, fence, args, pendingText, hrest]
    simp [List.flatMap_replicate, List.flatten_replicate_replicate, Nat.add_assoc]

theorem args_split_ne_nil (o : Opened) (n : Nat) (h : o.width ≤ n) : (o.split n).args ≠ [] := by
  rw [split, if_neg (Nat.not_lt.2 h)]
  simp [args]

theorem pendingText_split (o : Opened) (n : Nat) (h : o.width ≤ n) (hn : n % o.width = 0) :
    (o.split n).pendingText = [] := by
  rw [split, if_neg (Nat.not_lt.2 h)]
  simp [pendingText, hn]

@[simp] theorem split_width (o : Opened) (n : Nat) : (o.split n).width = o.width := by
  rw [split]
  split <;> rfl

@[simp] theorem split_offset (o : Opened) (n : Nat) : (o.split n).offset = o.offset := by
  rw [split]
  split <;> rfl

theorem render_call (o : Opened) (h : o.args ≠ []) (hp : o.pendingText = []) :
    o.call.render = o.render ++ [Token.gt] := by
  have hj := Bytes.join_append h o.fence
  simp only [call, Call.render, render, hp, List.append_nil]
  rw [← hj]
  simp [fence]

end Opened

structure Opened.StandsAt (o : Opened) (k : Nat) : Prop where
  offset : o.offset = k + (o.width + 1)
  width : 0 < o.width

structure Call.StandsAt (c : Call) (k : Nat) : Prop where
  offset : c.offset = k + (c.width + 1)
  width : 0 < c.width
  args : c.args ≠ []

namespace Opened.Takes

variable {o o' : Opened} {t : Token}

theorem opened_spec (h : o.Takes t (.opened o')) (hk : o.StandsAt k) :
    o'.render = o.render ++ t.spell ∧ o'.StandsAt k := by
  cases h with
  | keep _ _ => exact ⟨render_keep o t _, hk.offset, hk.width⟩
  | @split n _ =>
    refine ⟨?_, by simpa using hk.offset, by simpa using hk.width⟩
    simpa [Token.spell] using render_split o n hk.width

theorem closed_spec {c : Call} (h : o.Takes t (.closed c)) (ht : t.isProper = true)
    (hk : o.StandsAt k) : c.render = o.render ++ t.spell ∧ c.StandsAt k := by
  cases h with
  | @close n _ hn =>
    have hpos : 0 < n := by simpa [Token.isProper] using ht
    have hle : o.width ≤ n := Nat.le_of_dvd hpos (Nat.dvd_of_mod_eq_zero hn)
    have hargs := args_split_ne_nil o n hle
    refine ⟨?_, by simpa [call] using hk.offset, by simpa [call] using hk.width, hargs⟩
    rw [render_call _ hargs (pendingText_split o n hle hn), render_split o n hk.width]
    simp [Token.spell]

theorem short_spec (h : o.Takes t (.short o')) (hk : o.StandsAt k) :
    o'.render ++ [Token.gt] = o.render ++ t.spell ∧ o'.StandsAt k := by
  cases h with
  | @short n _ _ =>
    refine ⟨?_, by simpa using hk.offset, by simpa using hk.width⟩
    rw [render_split o n hk.width]
    simp [Token.spell]

end Opened.Takes

namespace Segment

def renderAll (segments : List Segment) : Bytes := segments.flatMap render

@[simp] theorem renderAll_nil : renderAll [] = [] := rfl

@[simp] theorem renderAll_cons (x : Segment) (xs : List Segment) :
    renderAll (x :: xs) = x.render ++ renderAll xs := rfl

@[simp] theorem renderAll_append (xs ys : List Segment) :
    renderAll (xs ++ ys) = renderAll xs ++ renderAll ys := by
  simp [renderAll]

def Stand : List Segment → Prop
  | [] => True
  | .literal t :: rest => t.isPlain = true ∧ Stand rest
  | .call c :: rest => c.StandsAt (renderAll rest.reverse).length ∧ Stand rest

theorem Stand.call {before : List Segment} (after : List Segment)
    (h : Stand (after ++ .call c :: before)) : c.StandsAt (renderAll before.reverse).length := by
  induction after with
  | nil => exact h.1
  | cons x after ih => cases x <;> exact ih h.2

theorem Stand.literal {xs : List Segment} (h : Stand xs) (ht : .literal t ∈ xs) :
    t.isPlain = true := by
  induction xs with
  | nil => cases ht
  | cons x xs ih =>
    cases x with
    | literal t' =>
      cases ht with
      | head => exact h.1
      | tail _ ht => exact ih h.2 ht
    | call c =>
      cases ht with
      | tail _ ht => exact ih h.2 ht

end Segment

namespace Layout

def Phase.Reads (done : Bytes) : Phase → Bytes → Prop
  | .outside, text => text = done
  | .inside o, text => text = done ++ o.render ∧ o.StandsAt done.length
  | .broken (.shortClose o), text =>
    (∃ rest, text = done ++ (o.render ++ Token.gt :: rest)) ∧ o.StandsAt done.length
  | .broken (.extraClose k), text => (∃ rest, text = done ++ Token.gt :: rest) ∧ k = done.length + 1
  | .broken (.missingClose _), _ => False

namespace Scan

structure Reads (s : Scan) (text : Bytes) : Prop where
  stand : Segment.Stand s.segments
  phase : s.phase.Reads (Segment.renderAll s.segments.reverse) text
  offset : (∀ d, s.phase ≠ .broken d) → s.offset = text.length

theorem step_reads {s : Scan} {text : Bytes} {t : Token} (ht : t.isProper = true)
    (h : s.Reads text) : (s.step t).Reads (text ++ t.spell) := by
  have hm := s.moves_step t
  generalize s.step t = s' at hm ⊢
  obtain ⟨hstand, hphase, hoffset⟩ := h
  cases hm with
  | copy hp =>
    obtain rfl : text = _ := hphase
    refine ⟨⟨hp, hstand⟩, by simp [Phase.Reads, Segment.render], fun _ => ?_⟩
    rw [List.length_append, Token.length_spell, ← hoffset (by simp)]
  | @opens done k n =>
    obtain rfl : text = _ := hphase
    have hk : k = _ := hoffset (by simp)
    refine ⟨hstand, ⟨?_, ?_, Nat.succ_pos n⟩, fun _ => ?_⟩
    · simp [Opened.render, Opened.fence, Opened.args, Opened.pendingText, Token.spell]
    · exact congrArg (· + (n + 2)) hk
    · simp [Token.size, hk]
  | @extra done k n =>
    obtain rfl : text = _ := hphase
    have hk : k = _ := hoffset (by simp)
    refine ⟨⟨rfl, hstand⟩, ⟨⟨[], ?_⟩, ?_⟩, fun h => absurd rfl (h _)⟩
    · simp [Segment.render, Token.spell]
    · simp [Segment.render, Token.spell, hk, Nat.add_assoc]
  | opened hf =>
    obtain ⟨rfl, hk⟩ := hphase
    obtain ⟨hr, hk'⟩ := hf.opened_spec hk
    refine ⟨hstand, ⟨by rw [hr, List.append_assoc], hk'⟩, fun _ => ?_⟩
    rw [List.length_append, Token.length_spell, ← hoffset (by simp)]
  | closed hf =>
    obtain ⟨rfl, hk⟩ := hphase
    obtain ⟨hr, hk'⟩ := hf.closed_spec ht hk
    refine ⟨⟨hk', hstand⟩, by simp [Phase.Reads, Segment.render, hr], fun _ => ?_⟩
    rw [List.length_append, Token.length_spell, ← hoffset (by simp)]
  | short hf =>
    obtain ⟨rfl, hk⟩ := hphase
    obtain ⟨hr, hk'⟩ := hf.short_spec hk
    refine ⟨hstand, ⟨⟨[], by rw [hr, List.append_assoc]⟩, hk'⟩, fun h => absurd rfl (h _)⟩
  | @stopped done k d _ =>
    refine ⟨hstand, ?_, fun h => absurd rfl (h _)⟩
    cases d with
    | missingClose o => exact hphase
    | shortClose o =>
      obtain ⟨⟨rest, rfl⟩, hk⟩ := hphase
      exact ⟨⟨rest ++ t.spell, by simp⟩, hk⟩
    | extraClose k =>
      obtain ⟨⟨rest, rfl⟩, hk⟩ := hphase
      exact ⟨⟨rest ++ t.spell, by simp⟩, hk⟩

theorem foldl_reads {ts : List Token} (hts : ∀ t ∈ ts, t.isProper = true) {s : Scan} {text : Bytes}
    (h : s.Reads text) : (ts.foldl step s).Reads (text ++ Token.spellAll ts) := by
  induction ts generalizing s text with
  | nil => simpa using h
  | cons t ts ih =>
    have hs := step_reads (hts t (by simp)) h
    simpa using ih (fun t' ht' => hts t' (by simp [ht'])) hs

end Scan

end Layout

/-- What is left of a text after the first `k` bytes, which are laid out up to a defect. -/
def Defect.Leaves (k : Nat) : Option Defect → Bytes → Prop
  | none, rest => rest = []
  | some (.missingClose o), rest => rest = o.render ∧ o.StandsAt k
  | some (.shortClose o), rest => (∃ after, rest = o.render ++ Token.gt :: after) ∧ o.StandsAt k
  | some (.extraClose offset), rest => (∃ after, rest = Token.gt :: after) ∧ offset = k + 1

namespace Bytes

theorem scan_reads (s : Bytes) : s.scan.Reads s := by
  have h : (({} : Layout.Scan)).Reads [] := ⟨trivial, rfl, fun _ => rfl⟩
  simpa [scan] using Layout.Scan.foldl_reads s.isProper_tokens h

theorem segments_eq (s : Bytes) : s.layout.segments = s.scan.segments.reverse := rfl

theorem layout_rest (s : Bytes) :
    ∃ rest, s = Segment.renderAll s.layout.segments ++ rest ∧
      Defect.Leaves (Segment.renderAll s.layout.segments).length s.layout.defect rest := by
  have h := s.scan_reads.phase
  rw [segments_eq, layout_eq_finish, Layout.Scan.finish]
  cases hp : s.scan.phase with
  | outside =>
    rw [hp] at h
    exact ⟨[], by simpa [Layout.Phase.Reads] using h, rfl⟩
  | inside o =>
    rw [hp] at h
    exact ⟨o.render, h.1, rfl, h.2⟩
  | broken d =>
    rw [hp] at h
    cases d with
    | missingClose o => exact h.elim
    | shortClose o =>
      obtain ⟨⟨rest, hs⟩, hk⟩ := h
      exact ⟨_, hs, ⟨rest, rfl⟩, hk⟩
    | extraClose k =>
      obtain ⟨⟨rest, hs⟩, hk⟩ := h
      exact ⟨_, hs, ⟨rest, rfl⟩, hk⟩

theorem call_standsAt {s : Bytes} {before after : List Segment} {c : Call}
    (h : s.layout.segments = before ++ .call c :: after) :
    c.StandsAt (Segment.renderAll before).length := by
  have hs : s.scan.segments = after.reverse ++ .call c :: before.reverse := by
    rw [segments_eq] at h
    simpa using congrArg List.reverse h
  have hstand := s.scan_reads.stand
  rw [hs] at hstand
  simpa using hstand.call

theorem literal_isPlain {s : Bytes} {t : Token} (h : .literal t ∈ s.layout.segments) :
    t.isPlain = true :=
  s.scan_reads.stand.literal (List.mem_reverse.1 h)

end Bytes

/-- The slots of a frame between fences of a width, by their raw texts. -/
def Frame.render (width : Nat) (f : Frame) : Bytes :=
  let fence := List.replicate width Token.tilde
  Token.lt :: fence ++ Bytes.join fence (f.slots.map fun s => s.text.getD []) ++ fence ++ [Token.gt]

theorem Call.render_frame (c : Call) (src : Source) : (c.frame src).render c.width = c.render := by
  simp [Frame.render, Call.render, Call.frame, Frame.ofTexts, Function.comp_def]

theorem Machine.write_write (m : Machine) (s t : Bytes) :
    (m.write s).write t = m.write (s ++ t) := by
  simp only [write, Output.write_write]

theorem Segment.runAll_render (src : Source) (segments : List Segment) (m : Machine) :
    runAll (fun c m => .done () (m.write ((c.frame src).render c.width))) segments m =
      .done () (m.write (renderAll segments)) := by
  induction segments generalizing m with
  | nil => rfl
  | cons x xs ih =>
    cases x with
    | literal t => rw [runAll, ih, Machine.write_write, renderAll_cons, render]
    | call c =>
      simp only [runAll]
      rw [ih, Machine.write_write, renderAll_cons, render, Call.render_frame]

/-- Laying out a text loses nothing. Each invocation, written out by the frame that is made of it,
is the stretch of the text where it stands. What the text consists of is what is copied and what is
invoked, in order: in whole if the text has no defect, and up to the defect if it has one. -/
theorem layout_lossless (src : Source) :
    (∀ before c after, src.bytes.layout.segments = before ++ .call c :: after →
      0 < (c.frame src).size ∧
      c.offset = (Segment.renderAll before).length + (c.width + 1) ∧
      ∃ rest, src.bytes = Segment.renderAll before ++ (c.frame src).render c.width ++ rest) ∧
    (src.bytes.layout.defect = none → ∀ m,
      src.bytes.layout.run (fun c m => .done () (m.write ((c.frame src).render c.width))) src m =
        .done () (m.write src.bytes)) ∧
    (∀ t, .literal t ∈ src.bytes.layout.segments → t.isPlain = true) ∧
    ∃ rest, src.bytes = Segment.renderAll src.bytes.layout.segments ++ rest ∧
      Defect.Leaves (Segment.renderAll src.bytes.layout.segments).length src.bytes.layout.defect
        rest := by
  obtain ⟨rest, hrest, hleaves⟩ := src.bytes.layout_rest
  refine ⟨?_, ?_, fun t => Bytes.literal_isPlain, rest, hrest, hleaves⟩
  · intro before c after h
    have hc := Bytes.call_standsAt h
    refine ⟨?_, hc.offset, Segment.renderAll after ++ rest, ?_⟩
    · simpa [Call.frame, Frame.ofTexts, Frame.size] using List.length_pos_iff.2 hc.args
    · rw [h] at hrest
      rw [Call.render_frame]
      simpa [Segment.render] using hrest
  · intro hnone m
    rw [hnone] at hleaves
    obtain rfl : rest = [] := hleaves
    rw [List.append_nil] at hrest
    rw [Layout.run, Segment.runAll_render, ← hrest, hnone]

def Source.longRun : Source := ⟨[], utf8 "a<~~m~~~~~b~~>c"⟩

theorem layout_lossless_longRun :
    let c : Call := ⟨4, 2, [utf8 "m", [], utf8 "~b"]⟩
    Source.longRun.bytes.layout.segments =
      [.literal (.byte 0x61)] ++ .call c :: [.literal (.byte 0x63)] ∧
    0 < (c.frame .longRun).size ∧
    (∃ rest, Source.longRun.bytes = utf8 "a" ++ (c.frame .longRun).render 2 ++ rest) ∧
    Source.longRun.bytes.layout.defect = none ∧
    ∀ m, Source.longRun.bytes.layout.run
      (fun c m => .done () (m.write ((c.frame .longRun).render c.width))) .longRun m =
        .done () (m.write Source.longRun.bytes) := by
  have h := layout_lossless .longRun
  have hcall := h.1 [.literal (.byte 0x61)] ⟨4, 2, [utf8 "m", [], utf8 "~b"]⟩
    [.literal (.byte 0x63)] (by decide)
  exact ⟨by decide, hcall.1, hcall.2.2, by decide, h.2.1 (by decide)⟩

end TildeText
