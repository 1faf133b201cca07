import TildeText.Layout

namespace TildeText

inductive Opened.Takes (o : Opened) : Token → Opened.Next → Prop
  | keep {t : Token} {k : Nat} (hk : t.depthAfter (o.inner + 1) = k + 1)
      (ht : o.inner = 0 → ∀ n closes, t ≠ .run n closes) :
      Takes o t (.opened { o.keep t with inner := k })
  | split {n : Nat} (h : o.inner = 0) : Takes o (.run n false) (.opened (o.split n))
  | close {n : Nat} (h : o.inner = 0) (hn : n % o.width = 0) :
      Takes o (.run n true) (.closed (o.split n).call)
  | short {n : Nat} (h : o.inner = 0) (hn : n % o.width ≠ 0) :
      Takes o (.run n true) (.short (o.split n))

theorem Opened.takes_feed (o : Opened) (t : Token) : o.Takes t (o.feed t) := by
  cases t with
  | byte b => exact .keep rfl (by simp)
  | fence n => cases n <;> exact .keep rfl (by simp)
  | run n closes =>
    rw [Opened.feed]
    split
    · rename_i h
      cases closes with
      | false => exact .split h
      | true =>
        simp only [Bool.not_true, Bool.false_eq_true, if_false]
        split
        · exact .close h ‹_›
        · exact .short h ‹_›
    · rename_i k h
      refine .keep ?_ (by simp [h])
      cases closes <;> simp [Token.depthAfter, h]

@[simp] theorem Opened.split_inner (o : Opened) (n : Nat) : (o.split n).inner = o.inner := by
  rw [Opened.split]
  split <;> rfl

def Token.isPlain : Token → Bool
  | .fence n => n == 0
  | .run _ closes => !closes
  | .byte _ => true

theorem Token.depthAfter_of_isPlain {t : Token} (h : t.isPlain = true) (depth : Nat) :
    t.depthAfter depth = depth := by
  cases t with
  | fence n =>
    obtain rfl : n = 0 := by simpa [isPlain] using h
    rfl
  | run n closes =>
    obtain rfl : closes = false := by simpa [isPlain] using h
    rfl
  | byte b => rfl

namespace Layout

namespace Scan

inductive Moves : Scan → Token → Scan → Prop
  | copy {t : Token} (ht : t.isPlain = true) :
      Moves ⟨done, k, .outside⟩ t ⟨.literal t :: done, k + t.size, .outside⟩
  | opens {n : Nat} :
      Moves ⟨done, k, .outside⟩ (.fence (n + 1))
        ⟨done, k + (n + 2), .inside { offset := k + (n + 2), width := n + 1 }⟩
  | extra {n : Nat} :
      Moves ⟨done, k, .outside⟩ (.run n true)
        ⟨.literal (.run n false) :: done, k + (n + 1), .broken (.extraClose (k + (n + 1)))⟩
  | opened {o o' : Opened} {t : Token} (h : o.Takes t (.opened o')) :
      Moves ⟨done, k, .inside o⟩ t ⟨done, k + t.size, .inside o'⟩
  | closed {o : Opened} {c : Call} {t : Token} (h : o.Takes t (.closed c)) :
      Moves ⟨done, k, .inside o⟩ t ⟨.call c :: done, k + t.size, .outside⟩
  | short {o o' : Opened} {t : Token} (h : o.Takes t (.short o')) :
      Moves ⟨done, k, .inside o⟩ t ⟨done, k + t.size, .broken (.shortClose o')⟩
  | stopped {d : Defect} {t : Token} :
      Moves ⟨done, k, .broken d⟩ t ⟨done, k, .broken d⟩

theorem moves_step (s : Scan) (t : Token) : s.Moves t (s.step t) := by
  obtain ⟨segments, k, phase⟩ := s
  cases phase with
  | outside =>
    cases t with
    | fence n =>
      cases n with
      | zero => exact .copy rfl
      | succ n => exact .opens
    | run n closes =>
      cases closes with
      | false => exact .copy rfl
      | true => exact .extra
    | byte b => exact .copy rfl
  | inside o =>
    have h := o.takes_feed t
    simp only [step]
    cases hf : o.feed t with
    | opened o' => exact .opened (hf ▸ h)
    | closed c => exact .closed (hf ▸ h)
    | short o' => exact .short (hf ▸ h)
  | broken d => exact .stopped

end Scan

def Phase.Follows (depth : Nat) : Phase → Prop
  | .outside => depth = 0
  | .inside o => depth = o.inner + 1
  | .broken (.missingClose _) => False
  | .broken _ => True

namespace Scan

theorem step_follows {s : Scan} {depth : Nat} (t : Token) (h : s.phase.Follows depth) :
    (s.step t).phase.Follows (t.depthAfter depth) := by
  have hm := s.moves_step t
  generalize s.step t = s' at hm ⊢
  cases hm with
  | copy ht =>
    rw [Token.depthAfter_of_isPlain ht]
    exact h
  | opens =>
    obtain rfl : depth = 0 := h
    rfl
  | extra => trivial
  | @opened _ _ o _ _ ht =>
    obtain rfl : depth = o.inner + 1 := h
    cases ht with
    | keep hk _ => exact hk
    | split hi => simp [Phase.Follows, Token.depthAfter]
  | @closed _ _ o _ _ ht =>
    obtain rfl : depth = o.inner + 1 := h
    cases ht with
    | close hi _ => simp [Phase.Follows, Token.depthAfter, hi]
  | short _ => trivial
  | @stopped _ _ d _ =>
    cases d with
    | missingClose o => exact h
    | shortClose o => trivial
    | extraClose offset => trivial

theorem foldl_follows (ts : List Token) {s : Scan} {depth : Nat} (h : s.phase.Follows depth) :
    (ts.foldl step s).phase.Follows (ts.foldl Token.depthAfter depth) := by
  induction ts generalizing s depth with
  | nil => exact h
  | cons t ts ih => exact ih (step_follows t h)

end Scan

end Layout

namespace Bytes

def scan (s : Bytes) : Layout.Scan := s.tokens.foldl Layout.Scan.step {}

theorem layout_eq_finish (s : Bytes) : s.layout = s.scan.finish := rfl

theorem scan_follows (s : Bytes) : s.scan.phase.Follows (s.tokens.foldl Token.depthAfter 0) :=
  Layout.Scan.foldl_follows s.tokens rfl

theorem isComplete_iff (s : Bytes) :
    s.isComplete = true ↔ s.tokens.foldl Token.depthAfter 0 = 0 := by
  simp [isComplete]

theorem scan_of_isComplete {s : Bytes} (h : s.isComplete = true) :
    s.scan.phase = .outside ∨ ∃ d, s.scan.phase = .broken d ∧ ∀ o, d ≠ .missingClose o := by
  have hf := s.scan_follows
  rw [(isComplete_iff s).1 h] at hf
  cases hp : s.scan.phase with
  | outside => exact .inl rfl
  | inside o =>
    rw [hp] at hf
    cases hf
  | broken d =>
    refine .inr ⟨d, rfl, ?_⟩
    rintro o rfl
    rw [hp] at hf
    exact hf

theorem layout_defect_ne_missingClose {s : Bytes} (h : s.isComplete = true) (o : Opened) :
    s.layout.defect ≠ some (.missingClose o) := by
  rw [layout_eq_finish, Layout.Scan.finish]
  rcases scan_of_isComplete h with hp | ⟨d, hp, hd⟩
  · simp [hp]
  · simpa [hp] using hd o

theorem layout_defect_of_not_isComplete {s : Bytes} (h : s.isComplete = false) :
    ∃ d, s.layout.defect = some d := by
  have hf := s.scan_follows
  rw [layout_eq_finish, Layout.Scan.finish]
  cases hp : s.scan.phase with
  | outside =>
    rw [hp] at hf
    rw [(isComplete_iff s).2 hf] at h
    cases h
  | inside o => exact ⟨_, rfl⟩
  | broken d => exact ⟨d, rfl⟩

end Bytes

end TildeText
