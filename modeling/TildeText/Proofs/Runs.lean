import TildeText.Eval

namespace TildeText

theorem Segment.runAll_failed {carryOut : Call → Machine → Outcome Unit} {segments : List Segment}
    {m m' : Machine} (h : runAll carryOut segments m = .failed e m') :
    ∃ before c after m₁, segments = before ++ .call c :: after ∧
      runAll carryOut before m = .done () m₁ ∧ carryOut c m₁ = .failed e m' := by
  induction segments generalizing m with
  | nil => cases h
  | cons x xs ih =>
    cases x with
    | literal t =>
      obtain ⟨before, c, after, m₁, rfl, hbefore, hc⟩ := ih h
      exact ⟨.literal t :: before, c, after, m₁, rfl, hbefore, hc⟩
    | call c =>
      rw [runAll] at h
      split at h
      · rename_i m₂ hc
        obtain ⟨before, c', after, m₁, rfl, hbefore, hc'⟩ := ih h
        refine ⟨.call c :: before, c', after, m₁, rfl, ?_, hc'⟩
        rw [runAll, hc]
        exact hbefore
      · rename_i hc
        cases h
        exact ⟨[], c, xs, m, rfl, rfl, hc⟩
      · cases h

theorem Layout.run_failed {l : Layout} {carryOut : Call → Machine → Outcome Unit} {src : Source}
    {m m' : Machine} (h : l.run carryOut src m = .failed e m') :
    Segment.runAll carryOut l.segments m = .failed e m' ∨
      ∃ d, Segment.runAll carryOut l.segments m = .done () m' ∧ l.defect = some d ∧
        e = d.failure src m' := by
  rw [run] at h
  split at h
  · rename_i m₁ hs
    split at h
    · cases h
    · rename_i d hd
      cases h
      exact .inr ⟨d, hs, hd, rfl⟩
  · rename_i hs
    cases h
    exact .inl hs
  · cases h

theorem Layout.run_ne_done {l : Layout} {d : Defect} (hd : l.defect = some d)
    (carryOut : Call → Machine → Outcome Unit) (src : Source) (m m' : Machine) :
    l.run carryOut src m ≠ .done () m' := by
  intro h
  rw [run] at h
  split at h
  · rw [hd] at h
    cases h
  · cases h
  · cases h

theorem Layout.run_of_no_defect {l : Layout} (h : l.defect = none)
    (carryOut : Call → Machine → Outcome Unit) (src : Source) (m : Machine) :
    l.run carryOut src m = Segment.runAll carryOut l.segments m := by
  rw [run, h]
  cases Segment.runAll carryOut l.segments m <;> rfl

theorem Layout.run_append (xs ys : List Segment) (d : Option Defect)
    (carryOut : Call → Machine → Outcome Unit) (src : Source) (m : Machine) :
    Layout.run ⟨xs ++ ys, d⟩ carryOut src m =
      (Segment.runAll carryOut xs m).andThen fun _ m => Layout.run ⟨ys, d⟩ carryOut src m := by
  simp only [run, Segment.runAll_append]
  cases Segment.runAll carryOut xs m <;> rfl

end TildeText
