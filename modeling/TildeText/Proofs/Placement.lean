import TildeText.Proofs.Simulation

namespace TildeText

def Failure.untraced : Failure → Failure
  | .fault f => .fault { f with trace := [] }
  | .problem p => .problem p
  | .crash start size short => .crash start size short

/-- An outcome in which it does not show where a fault was met. -/
def Outcome.untraced : Outcome α → Outcome α
  | .failed e m => .failed e.untraced m
  | o => o

theorem Outcome.eq_done_of_untraced {x : Outcome α} (h : x.untraced = .done a m) :
    x = .done a m := by
  cases x with
  | done a m => exact h
  | failed e m => cases h
  | exhausted => cases h

theorem Outcome.eq_problem_of_untraced {x : Outcome α} (h : x.untraced = .failed (.problem p) m) :
    x = .failed (.problem p) m := by
  cases x with
  | done a m => cases h
  | failed e m =>
    cases e with
    | fault f => cases h
    | problem p => exact h
    | crash start size short => cases h
  | exhausted => cases h

namespace Machine

def frames (m : Machine) : List Frame := m.scope.frame :: m.scope.outer

def origins (m : Machine) : List (Option Origin) := m.frames.map Frame.origin

@[simp] theorem frames_push (m : Machine) (f : Frame) : (m.push f).frames = f :: m.frames := rfl

theorem frames_pop {m : Machine} (h : m.scope.outer ≠ []) : m.pop.frames = m.scope.outer := by
  cases ho : m.scope.outer with
  | nil => exact absurd ho h
  | cons f rest => simp [frames, pop, Scope.around, ho]

def originsAround : List (Option Origin) → List (Option Origin)
  | _ :: o :: os => o :: os
  | _ => [none]

theorem map_originsAround {view : Option Origin → β} {os os' : List (Option Origin)}
    (h : os.map view = os'.map view) :
    (originsAround os).map view = (originsAround os').map view := by
  cases os with
  | nil =>
    obtain rfl : os' = [] := List.map_eq_nil_iff.1 h.symm
    rfl
  | cons o rest =>
    cases os' with
    | nil => simp at h
    | cons o' rest' =>
      simp only [List.map_cons, List.cons.injEq] at h
      cases rest with
      | nil =>
        obtain rfl : rest' = [] := List.map_eq_nil_iff.1 h.2.symm
        rfl
      | cons p rest =>
        cases rest' with
        | nil => simp at h
        | cons p' rest' => exact h.2

theorem origins_aside (m : Machine) : m.aside.origins = originsAround m.origins := by
  cases ho : m.scope.outer with
  | nil => simp [origins, frames, aside, Scope.around, originsAround, ho, Frame.empty]
  | cons f rest => simp [origins, frames, aside, Scope.around, originsAround, ho]

end Machine

structure Frame.Alike (view : Option Origin → β) (f f' : Frame) : Prop where
  slots : f.slots = f'.slots
  view : view f.origin = view f'.origin

theorem Frame.Alike.eq {f f' : Frame} (h : f.Alike id f') : f = f' := by
  obtain ⟨slots, origin⟩ := f
  obtain ⟨slots', origin'⟩ := f'
  obtain rfl : slots = slots' := h.slots
  obtain rfl : origin = origin' := h.view
  rfl

theorem Frame.map_congr {view : Option Origin → β} {g : Frame → γ}
    (hg : ∀ f f' : Frame, f.Alike view f' → g f = g f') {fs gs : List Frame}
    (hs : fs.map Frame.slots = gs.map Frame.slots)
    (hv : (fs.map Frame.origin).map view = (gs.map Frame.origin).map view) :
    fs.map g = gs.map g := by
  induction fs generalizing gs with
  | nil =>
    cases gs with
    | nil => rfl
    | cons f' gs => simp at hs
  | cons f fs ih =>
    cases gs with
    | nil => simp at hs
    | cons f' gs =>
      simp only [List.map_cons, List.cons.injEq] at hs hv ⊢
      exact ⟨hg f f' ⟨hs.1, hv.1⟩, ih hs.2 hv.2⟩

structure Machine.Alike (view : Option Origin → β) (w : List (Option Origin) × List (Option Origin))
    (m m' : Machine) : Prop where
  state : m.state = m'.state
  out : m.out = m'.out
  slots : m.frames.map Frame.slots = m'.frames.map Frame.slots
  left : m.origins = w.1
  right : m'.origins = w.2
  view : w.1.map view = w.2.map view

namespace Machine.Alike

variable {view : Option Origin → β} {w : List (Option Origin) × List (Option Origin)}
  {m m' m₁ m₁' : Machine}

theorem refl (view : Option Origin → β) (m : Machine) : m.Alike view (m.origins, m.origins) m :=
  ⟨rfl, rfl, rfl, rfl, rfl, rfl⟩

theorem eq {os : List (Option Origin)} (h : m.Alike view (os, os) m') : m = m' := by
  have hf : m.frames.map id = m'.frames.map id :=
    Frame.map_congr (fun _ _ hf => Frame.Alike.eq hf) h.slots
      (congrArg _ (h.left.trans h.right.symm))
  rw [List.map_id, List.map_id] at hf
  obtain ⟨state, ⟨frame, outer⟩, out⟩ := m
  obtain ⟨state', ⟨frame', outer'⟩, out'⟩ := m'
  obtain rfl : state = state' := h.state
  obtain rfl : out = out' := h.out
  simp only [frames, List.cons.injEq] at hf
  rw [hf.1, hf.2]

theorem frame_slots (h : m.Alike view w m') : m.scope.frame.slots = m'.scope.frame.slots := by
  have hs := h.slots
  simp only [frames, List.map_cons, List.cons.injEq] at hs
  exact hs.1

theorem outer_slots (h : m.Alike view w m') :
    m.scope.outer.map Frame.slots = m'.scope.outer.map Frame.slots := by
  have hs := h.slots
  simp only [frames, List.map_cons, List.cons.injEq] at hs
  exact hs.2

theorem setState (h : m.Alike view w m') (s : State) :
    { m with state := s }.Alike view w { m' with state := s } :=
  ⟨rfl, h.out, h.slots, h.left, h.right, h.view⟩

theorem mapFrame (h : m.Alike view w m') {g : Frame → Frame}
    (hs : ∀ f f', f.slots = f'.slots → (g f).slots = (g f').slots)
    (ho : ∀ f, (g f).origin = f.origin) : (m.mapFrame g).Alike view w (m'.mapFrame g) := by
  refine ⟨h.state, h.out, ?_, ?_, ?_, h.view⟩
  · simp only [frames, Machine.mapFrame, List.map_cons, List.cons.injEq]
    exact ⟨hs _ _ h.frame_slots, h.outer_slots⟩
  · rw [← h.left]
    simp [origins, frames, Machine.mapFrame, ho]
  · rw [← h.right]
    simp [origins, frames, Machine.mapFrame, ho]

theorem push (h : m.Alike view w m') {f f' : Frame} (hf : f.Alike view f') :
    (m.push f).Alike view (f.origin :: w.1, f'.origin :: w.2) (m'.push f') := by
  refine ⟨h.state, h.out, ?_, ?_, ?_, ?_⟩
  · rw [frames_push, frames_push, List.map_cons, List.map_cons, hf.slots, h.slots]
  · exact congrArg _ h.left
  · exact congrArg _ h.right
  · rw [List.map_cons, List.map_cons, hf.view, h.view]

theorem pop {o o' : Option Origin} (h : m.Alike view (o :: w.1, o' :: w.2) m') (hw : w.1 ≠ []) :
    m.pop.Alike view w m'.pop := by
  have hview : w.1.map view = w.2.map view := by
    have hv := h.view
    simp only [List.map_cons, List.cons.injEq] at hv
    exact hv.2
  have hl : m.scope.outer.map Frame.origin = w.1 := by
    have ho := h.left
    simp only [origins, frames, List.map_cons, List.cons.injEq] at ho
    exact ho.2
  have hr : m'.scope.outer.map Frame.origin = w.2 := by
    have ho := h.right
    simp only [origins, frames, List.map_cons, List.cons.injEq] at ho
    exact ho.2
  have hw' : w.2 ≠ [] := by
    intro he
    rw [he] at hview
    exact hw (List.map_eq_nil_iff.1 hview)
  have hf : m.pop.frames = m.scope.outer := frames_pop fun he => hw (by rw [← hl, he]; rfl)
  have hf' : m'.pop.frames = m'.scope.outer := frames_pop fun he => hw' (by rw [← hr, he]; rfl)
  refine ⟨h.state, h.out, ?_, ?_, ?_, hview⟩
  · rw [hf, hf', h.outer_slots]
  · rw [origins, hf, hl]
  · rw [origins, hf', hr]

theorem aside (h : m.Alike view w m') :
    m.aside.Alike view (originsAround w.1, originsAround w.2) m'.aside := by
  refine ⟨h.state, rfl, ?_, ?_, ?_, ?_⟩
  · have ho := h.outer_slots
    cases hm : m.scope.outer with
    | nil =>
      rw [hm] at ho
      have hm' : m'.scope.outer = [] := List.map_eq_nil_iff.1 ho.symm
      simp [frames, Machine.aside, Scope.around, hm, hm']
    | cons f rest =>
      cases hm' : m'.scope.outer with
      | nil => simp [hm, hm'] at ho
      | cons f' rest' =>
        rw [hm, hm'] at ho
        simpa [frames, Machine.aside, Scope.around, hm, hm'] using ho
  · rw [origins_aside, h.left]
  · rw [origins_aside, h.right]
  · exact map_originsAround h.view

theorem resume (h : m.Alike view w m') {f f' : Frame} (hs : f.slots = f'.slots)
    (hf : f.origin = m.scope.frame.origin) (hf' : f'.origin = m'.scope.frame.origin)
    (h₁ : m₁.Alike view (originsAround w.1, originsAround w.2) m₁') :
    (m.resume f m₁).Alike view w (m'.resume f' m₁') := by
  have ho := h.outer_slots
  have hl := h.left
  have hr := h.right
  cases hm : m.scope.outer with
  | nil =>
    rw [hm] at ho
    have hm' : m'.scope.outer = [] := List.map_eq_nil_iff.1 ho.symm
    refine ⟨h₁.state, h.out, ?_, ?_, ?_, h.view⟩
    · simp [frames, Machine.resume, Scope.within, hm, hm', hs]
    · rw [← hl]
      simp [origins, frames, Machine.resume, Scope.within, hm, hf]
    · rw [← hr]
      simp [origins, frames, Machine.resume, Scope.within, hm', hf']
  | cons g rest =>
    cases hm' : m'.scope.outer with
    | nil => simp [hm, hm'] at ho
    | cons g' rest' =>
      have hl₁ := h₁.left
      have hr₁ := h₁.right
      rw [← hl] at hl₁
      rw [← hr] at hr₁
      simp only [origins, frames, hm, hm', List.map_cons, originsAround] at hl₁ hr₁
      refine ⟨h₁.state, h.out, ?_, ?_, ?_, h.view⟩
      · have hs₁ := h₁.slots
        simp only [frames, List.map_cons, List.cons.injEq] at hs₁
        simp [frames, Machine.resume, Scope.within, Scope.push, hm, hm', hs, hs₁]
      · rw [← hl]
        simp [origins, frames, Machine.resume, Scope.within, Scope.push, hm, hf, hl₁]
      · rw [← hr]
        simp [origins, frames, Machine.resume, Scope.within, Scope.push, hm', hf', hr₁]

theorem adopt (h : m.Alike view w m') (m₁ : Machine) :
    (m.adopt m₁).Alike view w (m'.adopt m₁) := by
  refine ⟨rfl, ?_, ?_, h.left, h.right, h.view⟩
  · simp only [Machine.adopt, h.out]
  · simp only [frames, Machine.adopt, List.map_cons, List.cons.injEq]
    exact ⟨trivial, h.outer_slots⟩

theorem simulation {F : Failure → Failure → Prop} (hF : ∀ e, F e e)
    (hfault : ∀ w (m m' : Machine), m.Alike view w m' → ∀ kind evidence cause,
      F (m.fault kind evidence cause) (m'.fault kind evidence cause)) :
    Simulation (fun _ => True) (Machine.Alike view) F (Frame.Alike view) where
  calls _ _ _ := ⟨rfl, rfl⟩
  defects _ := .refl (fun _ => ⟨rfl, rfl⟩) _ _
  under _ := ⟨rfl, rfl⟩
  slots h := h.frame_slots
  fault h := hfault _ _ _ h
  own := hF
  write h s := ⟨h.state, congrArg (·.write s) h.out, h.slots, h.left, h.right, h.view⟩
  perform h ctx r _ hr := r.perform_related hr ctx hF h.state h.frame_slots fun m₁ _ => h.adopt m₁
  argument {_ _ w m m'} he h n := by
    refine he.argument h h.frame_slots h.aside (fun m₁ m₁' h₁ => ⟨h₁.out, ?_, fun n v => ?_⟩) n
    · exact h.resume h.frame_slots rfl rfl h₁
    · refine h.resume ?_ rfl rfl h₁
      simp only [Frame.remember, h.frame_slots]
  push {w m m' f f'} h hf := by
    refine ⟨_, h.push hf, fun m₁ m₁' h₁ => h₁.pop ?_⟩
    rw [← h.left]
    simp [Machine.origins, Machine.frames]
  rebind h n v := by
    refine h.mapFrame (fun f f' hs => ?_) fun f => rfl
    simp only [Frame.rebind, Frame.size, hs]
  find {w m m'} h name := by
    rw [← h.state]
    cases m.state.dictionary.find m.state.storage.system name with
    | error p => exact .error
    | ok found =>
      obtain ⟨e, d⟩ := found
      refine .ok rfl rfl ?_
      have hs := h.setState { m.state with dictionary := d }
      simpa [Machine.setDictionary, h.state] using hs

theorem simulation_untraced :
    Simulation (fun _ => True) (Machine.Alike fun _ => ()) (fun e e' => e.untraced = e'.untraced)
      (Frame.Alike fun _ => ()) :=
  simulation (fun _ => rfl) fun _ _ _ _ _ _ _ => rfl

theorem simulation_traced :
    Simulation (fun _ => True) (Machine.Alike (Option.map Origin.describe)) Eq
      (Frame.Alike (Option.map Origin.describe)) := by
  refine simulation (fun _ => rfl) fun w m m' h kind evidence cause => ?_
  have hview : m.origins.map (Option.map Origin.describe) =
      m'.origins.map (Option.map Origin.describe) := by
    rw [h.left, h.right, h.view]
  have hd : m.frames.map Frame.describe = m'.frames.map Frame.describe := by
    refine Frame.map_congr (fun f f' hf => ?_) h.slots hview
    simp only [Frame.describe, Frame.raw, hf.slots, hf.view]
  have htrace (m : Machine) : m.scope.trace = (m.frames.map Frame.describe).reverse.flatten := by
    simp [Scope.trace, Machine.frames, List.flatMap]
  rw [Machine.fault, Machine.fault, htrace, htrace, hd]

end Machine.Alike

namespace Outcome.Related

theorem untraced_eq {x y : Outcome α}
    (h : x.Related Eq (fun e e' => e.untraced = e'.untraced) y) : x.untraced = y.untraced := by
  cases h with
  | done h => rw [h]
  | failed hf h => rw [Outcome.untraced, Outcome.untraced, hf, h]
  | exhausted => rfl

end Outcome.Related

section

variable (registry : Registry) (n : Nat) {src src' : Source} {l l' : Layout} (m : Machine)

theorem Layout.run_untraced
    (hs : Segment.Alike (Frame.Alike fun _ => ()) src src' l.segments l'.segments)
    (hd : Defect.Alike (Frame.Alike fun _ => ()) src src' l.defect l'.defect) :
    (l.run (Invocation.carryOut registry n (eval registry n) src) src m).untraced =
      (l'.run (Invocation.carryOut registry n (eval registry n) src') src' m).untraced := by
  have S := Machine.Alike.simulation_untraced
  have h := S.layout registry.asksOnly n (S.keeps_eval registry.asksOnly n) hs hd (.refl _ m)
  exact (h.imp fun _ _ => Machine.Alike.eq).untraced_eq

theorem eval_named_untraced (name name' s : Bytes) :
    (eval registry n ⟨name, s⟩ m).untraced = (eval registry n ⟨name', s⟩ m).untraced := by
  cases n with
  | zero => rfl
  | succ n =>
    refine Layout.run_untraced registry n m (.of_frames fun c _ => ⟨rfl, rfl⟩) ?_
    simp only
    cases s.layout.defect with
    | none => exact .none
    | some d =>
      cases d with
      | shortClose o => exact .shortClose ⟨rfl, rfl⟩
      | missingClose o => exact .missingClose ⟨rfl, rfl⟩
      | extraClose k => exact .extraClose ⟨rfl, rfl⟩

theorem Layout.run_traced
    (hs : Segment.Alike (Frame.Alike (Option.map Origin.describe)) src src' l.segments l'.segments)
    (hd : Defect.Alike (Frame.Alike (Option.map Origin.describe)) src src' l.defect l'.defect) :
    l.run (Invocation.carryOut registry n (eval registry n) src) src m =
      l'.run (Invocation.carryOut registry n (eval registry n) src') src' m := by
  have S := Machine.Alike.simulation_traced
  have h := S.layout registry.asksOnly n (S.keeps_eval registry.asksOnly n) hs hd (.refl _ m)
  exact (h.imp fun _ _ => Machine.Alike.eq).eq

theorem Segment.runAll_traced
    (hs : Segment.Alike (Frame.Alike (Option.map Origin.describe)) src src' xs ys) :
    Segment.runAll (Invocation.carryOut registry n (eval registry n) src) xs m =
      Segment.runAll (Invocation.carryOut registry n (eval registry n) src') ys m := by
  have S := Machine.Alike.simulation_traced
  have h := S.segments registry.asksOnly n (S.keeps_eval registry.asksOnly n) hs (.refl _ m)
  exact (h.imp fun _ _ => Machine.Alike.eq).eq

end

end TildeText
