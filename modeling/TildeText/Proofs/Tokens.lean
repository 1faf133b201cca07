import TildeText.Token

namespace TildeText

/-- The last byte of one text and the first byte of another that may belong to one token. -/
def Bytes.Fuse (a b : Bytes) : Prop :=
  (a.getLast? = some Token.lt ∨ a.getLast? = some Token.tilde) ∧
    (b.head? = some Token.tilde ∨ b.head? = some Token.gt)

instance (a b : Bytes) : Decidable (a.Fuse b) := inferInstanceAs (Decidable (_ ∧ _))

namespace Token

def takesTilde : Token → Bool
  | .run _ _ => true
  | .byte b => b == gt
  | .fence _ => false

theorem beforeTilde_of_not_takes (ts : List Token) (h : ∀ t ∈ ts.head?, t.takesTilde = false) :
    beforeTilde ts = .run 1 false :: ts := by
  cases ts with
  | nil => rfl
  | cons t ts =>
    have ht := h t rfl
    cases t with
    | fence n => rfl
    | run n closes => simp [takesTilde] at ht
    | byte b =>
      have hb : b ≠ gt := by simpa [takesTilde] using ht
      simp [beforeTilde, hb]

theorem beforeLt_of_not_takes (ts : List Token) (h : ∀ t ∈ ts.head?, t.takesTilde = false) :
    beforeLt ts = .fence 0 :: ts := by
  cases ts with
  | nil => rfl
  | cons t ts =>
    have ht := h t rfl
    cases t with
    | fence n => rfl
    | run n closes => simp [takesTilde] at ht
    | byte b => rfl

theorem before_cons_append (b : UInt8) (t : Token) (ts us : List Token) :
    before b (t :: (ts ++ us)) = before b (t :: ts) ++ us := by
  rw [before, before]
  split
  · cases t with
    | fence n => rfl
    | run n closes => rfl
    | byte c =>
      simp only [beforeTilde]
      split <;> rfl
  · split
    · cases t with
      | fence n => rfl
      | run n closes => cases closes <;> rfl
      | byte c => rfl
    · rfl

theorem before_ne_nil (b : UInt8) (ts : List Token) : before b ts ≠ [] := by
  intro h
  have hs := spellAll_before b ts
  rw [h] at hs
  simp at hs

end Token

namespace Bytes

@[simp] theorem tokens_nil : tokens [] = [] := rfl

@[simp] theorem tokens_cons (b : UInt8) (s : Bytes) : tokens (b :: s) = Token.before b (tokens s) :=
  rfl

theorem not_takesTilde_of_head (s : Bytes) (ht : s.head? ≠ some Token.tilde)
    (hg : s.head? ≠ some Token.gt) : ∀ t ∈ (tokens s).head?, t.takesTilde = false := by
  cases s with
  | nil => simp
  | cons b s =>
    have hb : b ≠ Token.tilde := by simpa using ht
    have hb' : b ≠ Token.gt := by simpa using hg
    intro t h
    rw [tokens_cons, Token.before, if_neg hb] at h
    split at h
    · -- whatever follows, the first token is a fence
      revert h
      fun_cases Token.beforeLt (tokens s) <;> simp <;> rintro rfl <;> rfl
    · simp only [List.head?_cons, Option.mem_def, Option.some.injEq] at h
      rw [← h]
      simpa [Token.takesTilde] using hb'

theorem tokens_append (a b : Bytes) (h : ¬ a.Fuse b) : tokens (a ++ b) = tokens a ++ tokens b := by
  induction a with
  | nil => rfl
  | cons x a ih =>
    cases a with
    | nil =>
      simp only [List.cons_append, List.nil_append, tokens_cons, tokens_nil]
      by_cases hx : x = Token.lt ∨ x = Token.tilde
      · have hb : b.head? ≠ some Token.tilde ∧ b.head? ≠ some Token.gt := by
          simpa [Fuse, hx] using h
        have ht := not_takesTilde_of_head b hb.1 hb.2
        rcases hx with rfl | rfl
        · exact Token.beforeLt_of_not_takes _ ht
        · exact Token.beforeTilde_of_not_takes _ ht
      · have hl : x ≠ Token.lt := fun e => hx (.inl e)
        have ht : x ≠ Token.tilde := fun e => hx (.inr e)
        simp [Token.before, hl, ht]
    | cons y a =>
      have ha : ¬ Fuse (y :: a) b := by simpa [Fuse] using h
      have hne : tokens (y :: a) ≠ [] := Token.before_ne_nil y (tokens a)
      obtain ⟨t, ts, hts⟩ := List.exists_cons_of_ne_nil hne
      rw [List.cons_append, tokens_cons, ih ha, tokens_cons x, hts]
      exact Token.before_cons_append x t ts (tokens b)

end Bytes

end TildeText
