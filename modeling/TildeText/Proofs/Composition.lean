import TildeText.Builtin.Standard
import TildeText.Proofs.Lossless
import TildeText.Proofs.Placement
import TildeText.Proofs.Runs

namespace TildeText

def Call.shift (k : Nat) (c : Call) : Call := { c with offset := k + c.offset }

def Opened.shift (k : Nat) (o : Opened) : Opened := { o with offset := k + o.offset }

def Opened.Next.shift (k : Nat) : Opened.Next → Opened.Next
  | .opened o => .opened (o.shift k)
  | .closed c => .closed (c.shift k)
  | .short o => .short (o.shift k)

def Defect.shift (k : Nat) : Defect → Defect
  | .shortClose o => .shortClose (o.shift k)
  | .extraClose offset => .extraClose (k + offset)
  | .missingClose o => .missingClose (o.shift k)

def Segment.shift (k : Nat) : Segment → Segment
  | .literal t => .literal t
  | .call c => .call (c.shift k)

theorem Opened.split_shift (k : Nat) (o : Opened) (n : Nat) :
    (o.shift k).split n = (o.split n).shift k := by
  have hwidth : (o.shift k).width = o.width := rfl
  rw [split, split, hwidth]
  by_cases h : n < o.width
  · rw [if_pos h, if_pos h]
    rfl
  · rw [if_neg h, if_neg h]
    rfl

theorem Opened.feed_shift (k : Nat) (o : Opened) (t : Token) :
    (o.shift k).feed t = (o.feed t).shift k := by
  cases t with
  | byte b => rfl
  | fence n => cases n <;> rfl
  | run n closes =>
    simp only [feed, split_shift]
    rw [show (o.shift k).inner = o.inner from rfl, show (o.shift k).width = o.width from rfl]
    cases o.inner with
    | zero =>
      cases closes with
      | false => rfl
      | true =>
        simp only [Bool.not_true, Bool.false_eq_true, if_false]
        split <;> rfl
    | succ i => rfl

namespace Layout

def Phase.shift (k : Nat) : Phase → Phase
  | .outside => .outside
  | .inside o => .inside (o.shift k)
  | .broken d => .broken (d.shift k)

namespace Scan

def shift (earlier : List Segment) (k : Nat) (s : Scan) : Scan :=
  ⟨s.segments.map (.shift k) ++ earlier, k + s.offset, s.phase.shift k⟩

theorem step_shift (earlier : List Segment) (k : Nat) (s : Scan) (t : Token) :
    (s.shift earlier k).step t = (s.step t).shift earlier k := by
  obtain ⟨segments, offset, phase⟩ := s
  cases phase with
  | outside =>
    cases t with
    | fence n => cases n <;> simp [step, literal, shift, Phase.shift, Opened.shift, Segment.shift,
        Nat.add_assoc]
    | run n closes => cases closes <;> simp [step, literal, shift, Phase.shift, Defect.shift,
        Segment.shift, Nat.add_assoc]
    | byte b => simp [step, literal, shift, Phase.shift, Segment.shift, Nat.add_assoc]
  | inside o =>
    simp only [step, shift, Phase.shift, Opened.feed_shift]
    cases o.feed t <;> simp [Opened.Next.shift, Defect.shift, Segment.shift, Nat.add_assoc]
  | broken d => rfl

theorem foldl_shift (earlier : List Segment) (k : Nat) (ts : List Token) (s : Scan) :
    ts.foldl step (s.shift earlier k) = (ts.foldl step s).shift earlier k := by
  induction ts generalizing s with
  | nil => rfl
  | cons t ts ih => rw [List.foldl_cons, step_shift, ih, List.foldl_cons]

theorem foldl_broken (ts : List Token) {s : Scan} (h : s.phase = .broken d) :
    ts.foldl step s = s := by
  induction ts with
  | nil => rfl
  | cons t ts ih =>
    have hs : s.step t = s := by simp only [step, h]
    rw [List.foldl_cons, hs, ih]

end Scan

end Layout

namespace Bytes

variable {a b : Bytes}

theorem scan_append (h : ¬ a.Fuse b) : scan (a ++ b) = b.tokens.foldl Layout.Scan.step a.scan := by
  rw [scan, tokens_append a b h, List.foldl_append]
  rfl

theorem layout_append (h : ¬ a.Fuse b) (ha : a.scan.phase = .outside) :
    layout (a ++ b) = ⟨a.layout.segments ++ b.layout.segments.map (.shift a.length),
      b.layout.defect.map (.shift a.length)⟩ := by
  have hoffset : a.scan.offset = a.length := a.scan_reads.offset (by simp [ha])
  have hscan : a.scan = Layout.Scan.shift a.scan.segments a.length {} := by
    rw [← hoffset]
    conv => lhs; rw [show a.scan = ⟨a.scan.segments, a.scan.offset, a.scan.phase⟩ from rfl, ha]
    rfl
  rw [layout_eq_finish, scan_append h, hscan, Layout.Scan.foldl_shift]
  have hb : b.tokens.foldl Layout.Scan.step {} = b.scan := rfl
  rw [hb, segments_eq, segments_eq, layout_eq_finish b]
  simp only [Layout.Scan.finish, Layout.Scan.shift]
  congr 1
  · simp
  · cases b.scan.phase <;> rfl

theorem layout_append_of_broken (h : ¬ a.Fuse b) (ha : a.scan.phase = .broken d) :
    layout (a ++ b) = a.layout := by
  rw [layout_eq_finish, scan_append h, Layout.Scan.foldl_broken _ ha, layout_eq_finish]

end Bytes

theorem Cursor.advance_append (c : Cursor) (p : Bytes) {x : UInt8} (hx : x ≠ 0x0d)
    (rest rest' : Bytes) :
    c.advance (p.length + 1) (p ++ x :: rest) = c.advance (p.length + 1) (p ++ x :: rest') := by
  induction p generalizing c with
  | nil => simp [advance, next, endsLine, hx]
  | cons y p ih =>
    have hnext : c.next y (p ++ x :: rest) = c.next y (p ++ x :: rest') := by
      have hhead : (p ++ x :: rest).head? = (p ++ x :: rest').head? := by cases p <;> rfl
      rw [next, next, endsLine, endsLine, hhead]
    simp only [List.length_cons, List.cons_append, advance]
    rw [hnext, ih]

theorem Origin.describe_append {p : Bytes} {x : UInt8} (hx : x ≠ 0x0d) (name rest b : Bytes)
    (hk : k = p.length + 1) :
    describe ⟨⟨name, p ++ x :: rest⟩, k⟩ = describe ⟨⟨name, p ++ x :: rest ++ b⟩, k⟩ := by
  have hc : Cursor.after (p ++ x :: rest) k = Cursor.after (p ++ x :: rest ++ b) k := by
    rw [hk, Cursor.after, Cursor.after, List.append_assoc, List.cons_append]
    exact Cursor.advance_append {} p hx rest (rest ++ b)
  simp only [describe, hc]

theorem Origin.describe_fence {w : Nat} (hw : 0 < w) (name done more b : Bytes)
    (hk : k = done.length + (w + 1)) :
    let s := done ++ (Token.lt :: List.replicate w Token.tilde ++ more)
    describe ⟨⟨name, s⟩, k⟩ = describe ⟨⟨name, s ++ b⟩, k⟩ := by
  obtain ⟨w, rfl⟩ : ∃ v, w = v + 1 := ⟨w - 1, by omega⟩
  have hs : done ++ (Token.lt :: List.replicate (w + 1) Token.tilde ++ more) =
      (done ++ Token.lt :: List.replicate w Token.tilde) ++ Token.tilde :: more := by
    rw [List.replicate_succ']
    simp
  simp only [hs]
  exact describe_append (by decide) name more b (by simp [hk, Nat.add_assoc])

abbrev Frame.Traced : Frame → Frame → Prop := Frame.Alike (Option.map Origin.describe)

theorem Frame.traced_of_describe {texts : List Bytes} {o o' : Origin}
    (h : o.describe = o'.describe) :
    Frame.Traced (.ofTexts texts (some o)) (.ofTexts texts (some o')) :=
  ⟨rfl, congrArg some h⟩

theorem Call.traced_append {c : Call} {done : Bytes} (h : c.StandsAt done.length)
    (name more b : Bytes) :
    Frame.Traced (c.frame ⟨name, done ++ (c.render ++ more)⟩)
      (c.frame ⟨name, done ++ (c.render ++ more) ++ b⟩) := by
  refine Frame.traced_of_describe ?_
  have hd := Origin.describe_fence h.width name done
    (Bytes.join (List.replicate c.width Token.tilde) c.args ++ List.replicate c.width Token.tilde ++
      Token.gt :: more) b h.offset
  simpa [Call.render] using hd

theorem Opened.traced_append {o : Opened} {done : Bytes} (h : o.StandsAt done.length)
    (name more b : Bytes) :
    Frame.Traced (o.frame ⟨name, done ++ (o.render ++ more)⟩)
      (o.frame ⟨name, done ++ (o.render ++ more) ++ b⟩) := by
  refine Frame.traced_of_describe ?_
  have hd := Origin.describe_fence h.width name done
    (o.args.flatMap (· ++ o.fence) ++ (o.pendingText ++ more)) b h.offset
  simpa [Opened.render, Opened.fence] using hd

namespace Bytes

theorem segments_traced (name a b : Bytes) :
    Segment.Alike Frame.Traced ⟨name, a⟩ ⟨name, a ++ b⟩ a.layout.segments a.layout.segments := by
  refine .of_frames fun c hc => ?_
  obtain ⟨before, after, hs⟩ := List.append_of_mem hc
  obtain ⟨rest, hrest, -⟩ := a.layout_rest
  have ha : a = Segment.renderAll before ++ (c.render ++ (Segment.renderAll after ++ rest)) := by
    rw [hs] at hrest
    simpa [Segment.render] using hrest
  have h := Call.traced_append (call_standsAt hs) name (Segment.renderAll after ++ rest) b
  rwa [← ha] at h

theorem defect_traced (name a b : Bytes) :
    Defect.Alike Frame.Traced ⟨name, a⟩ ⟨name, a ++ b⟩ a.layout.defect a.layout.defect := by
  obtain ⟨rest, hrest, hleaves⟩ := a.layout_rest
  generalize Segment.renderAll a.layout.segments = done at hrest hleaves
  generalize a.layout.defect = d at hleaves ⊢
  subst hrest
  match d, hleaves with
  | none, _ => exact .none
  | some (.missingClose o), ⟨hr, hk⟩ =>
    subst hr
    have h := Opened.traced_append hk name [] b
    exact .missingClose (by simpa using h)
  | some (.shortClose o), ⟨⟨after, hr⟩, hk⟩ =>
    subst hr
    exact .shortClose (Opened.traced_append hk name (Token.gt :: after) b)
  | some (.extraClose k), ⟨⟨after, hr⟩, hk⟩ =>
    subst hr
    exact .extraClose ⟨rfl, congrArg some (Origin.describe_append (by decide) name after b hk)⟩

end Bytes

theorem Segment.alike_shift (src src' : Source) (k : Nat) (xs : List Segment) :
    Segment.Alike (Frame.Alike fun _ => ()) src src' (xs.map (.shift k)) xs := by
  induction xs with
  | nil => exact .nil
  | cons x xs ih =>
    cases x with
    | literal t => exact .literal ih
    | call c => exact .call rfl ⟨rfl, rfl⟩ ih

theorem Defect.alike_shift (src src' : Source) (k : Nat) (d : Option Defect) :
    Defect.Alike (Frame.Alike fun _ => ()) src src' (d.map (.shift k)) d := by
  cases d with
  | none => exact .none
  | some d =>
    cases d with
    | shortClose o => exact .shortClose ⟨rfl, rfl⟩
    | missingClose o => exact .missingClose ⟨rfl, rfl⟩
    | extraClose offset => exact .extraClose ⟨rfl, rfl⟩

section

variable (registry : Registry) (n : Nat) (name : Bytes) {a b : Bytes} (m : Machine)

theorem eval_append_of_broken (h : ¬ a.Fuse b) (ha : a.scan.phase = .broken d) :
    eval registry n ⟨name, a ++ b⟩ m = eval registry n ⟨name, a⟩ m := by
  cases n with
  | zero => rfl
  | succ n =>
    rw [eval, eval, Bytes.layout_append_of_broken h ha]
    exact (Layout.run_traced registry n m (Bytes.segments_traced name a b)
      (Bytes.defect_traced name a b)).symm

theorem eval_append_of_outside (h : ¬ a.Fuse b) (ha : a.scan.phase = .outside) :
    eval registry (n + 1) ⟨name, a ++ b⟩ m = (eval registry (n + 1) ⟨name, a⟩ m).andThen fun _ m =>
      Layout.run ⟨b.layout.segments.map (.shift a.length), b.layout.defect.map (.shift a.length)⟩
        (Invocation.carryOut registry n (eval registry n) ⟨name, a ++ b⟩) ⟨name, a ++ b⟩ m := by
  have hnone : a.layout.defect = none := by
    rw [Bytes.layout_eq_finish, Layout.Scan.finish, ha]
  have hfirst : eval registry (n + 1) ⟨name, a⟩ m = Segment.runAll
      (Invocation.carryOut registry n (eval registry n) ⟨name, a ++ b⟩) a.layout.segments m := by
    rw [eval, Layout.run_of_no_defect hnone]
    exact Segment.runAll_traced registry n m (Bytes.segments_traced name a b)
  rw [hfirst, eval, Bytes.layout_append h ha, Layout.run_append]

theorem eval_append_of_not_done (h : ¬ a.Fuse b) (ha : a.isComplete = true)
    (hnot : ∀ m', eval registry n ⟨name, a⟩ m ≠ .done () m') :
    eval registry n ⟨name, a ++ b⟩ m = eval registry n ⟨name, a⟩ m := by
  cases n with
  | zero => rfl
  | succ n =>
    rcases Bytes.scan_of_isComplete ha with hout | ⟨d, hbroken, -⟩
    · rw [eval_append_of_outside registry n name m h hout]
      cases hrun : eval registry (n + 1) ⟨name, a⟩ m with
      | done u m' => exact absurd hrun (hnot m')
      | failed e m' => rfl
      | exhausted => rfl
    · exact eval_append_of_broken registry (n + 1) name m h hbroken

theorem eval_append_of_done (h : ¬ a.Fuse b) (ha : a.isComplete = true) {m' : Machine}
    (hdone : eval registry n ⟨name, a⟩ m = .done () m') (name' : Bytes) :
    (eval registry n ⟨name, a ++ b⟩ m).untraced = (eval registry n ⟨name', b⟩ m').untraced := by
  cases n with
  | zero => cases hdone
  | succ n =>
    rcases Bytes.scan_of_isComplete ha with hout | ⟨d, hbroken, -⟩
    · rw [eval_append_of_outside registry n name m h hout, hdone]
      exact Layout.run_untraced registry n m' (Segment.alike_shift _ _ _ _)
        (Defect.alike_shift _ _ _ _)
    · have hdefect : a.layout.defect = some d := by
        rw [Bytes.layout_eq_finish, Layout.Scan.finish, hbroken]
      exact absurd hdone (Layout.run_ne_done hdefect _ _ m m')

end

/-- Evaluation of a text that is put together from two, of which the first is complete and does not
fuse with the second. If the first one fails, then so does the whole, in the same way and the same
state. If it is done, the whole goes on like the second text by itself, and can differ only in where
a fault is met. -/
theorem eval_append (registry : Registry) (n : Nat) (name a b : Bytes) (m : Machine)
    (ha : a.isComplete = true) (h : ¬ a.Fuse b) :
    (∀ e m', eval registry n ⟨name, a⟩ m = .failed e m' →
      eval registry n ⟨name, a ++ b⟩ m = .failed e m') ∧
    (∀ m', eval registry n ⟨name, a⟩ m = .done () m' → ∀ name',
      (eval registry n ⟨name, a ++ b⟩ m).untraced = (eval registry n ⟨name', b⟩ m').untraced) ∧
    (eval registry n ⟨name, a⟩ m = .exhausted → eval registry n ⟨name, a ++ b⟩ m = .exhausted) := by
  have hnot (hrun : ∀ m', eval registry n ⟨name, a⟩ m ≠ .done () m') :=
    eval_append_of_not_done registry n name m h ha hrun
  refine ⟨fun e m' he => ?_, fun m' hdone => eval_append_of_done registry n name m h ha hdone,
    fun he => ?_⟩
  · rw [hnot (by simp [he]), he]
  · rw [hnot (by simp [he]), he]

theorem eval_append_rebound :
    Bytes.isComplete (utf8 "<~1~v~>~") = true ∧ ¬ (utf8 "<~1~v~>~").Fuse (utf8 "<~1~>") ∧
    ∃ m', eval .standard 3 ⟨[], utf8 "<~1~v~>~"⟩ ⟨{}, ⟨.empty, []⟩, {}⟩ = .done () m' ∧
      (eval .standard 3 ⟨[], utf8 "<~1~v~>~" ++ utf8 "<~1~>"⟩ ⟨{}, ⟨.empty, []⟩, {}⟩).untraced =
        (eval .standard 3 ⟨[], utf8 "<~1~>"⟩ m').untraced := by
  have ha : Bytes.isComplete (utf8 "<~1~v~>~") = true := by decide
  have hab : ¬ (utf8 "<~1~v~>~").Fuse (utf8 "<~1~>") := by decide
  exact ⟨ha, hab, _, rfl, (eval_append .standard 3 [] _ _ _ ha hab).2.1 _ rfl []⟩

end TildeText
