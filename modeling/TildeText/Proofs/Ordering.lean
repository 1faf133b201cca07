import TildeText.Proofs.Numerals

namespace TildeText.Bytes

section Dictionary

variable {s t u : Bytes}

theorem lexLess_iff : lexLess s t = true ↔ List.Lex (· < ·) s t := by
  fun_induction lexLess s t with
  | case1 s => simp [List.not_lex_nil]
  | case2 b t => simp
  | case3 s b t ih => simp [ih, List.cons_lex_cons_iff, UInt8.lt_irrefl]
  | case4 a s b t hne => simp [List.cons_lex_cons_iff, hne]

theorem lexLess_asymm (h : lexLess s t = true) : lexLess t s = false := by
  rw [Bool.eq_false_iff]
  intro h'
  exact List.lex_asymm UInt8.lt_asymm (lexLess_iff.1 h) (lexLess_iff.1 h')

theorem lexLess_irrefl (s : Bytes) : lexLess s s = false := by
  rw [Bool.eq_false_iff, Ne, lexLess_iff]
  exact List.lex_irrefl UInt8.lt_irrefl s

theorem lexLess_trans (h : lexLess s t = true) (h' : lexLess t u = true) : lexLess s u = true :=
  lexLess_iff.2 (List.lex_trans UInt8.lt_trans (lexLess_iff.1 h) (lexLess_iff.1 h'))

theorem lexLess_or_eq (s t : Bytes) : lexLess s t = true ∨ s = t ∨ lexLess t s = true := by
  fun_induction lexLess s t with
  | case1 s => cases s <;> simp [lexLess]
  | case2 b t => simp
  | case3 s b t ih => simpa [lexLess] using ih
  | case4 a s b t hne =>
    have hval : a.toNat ≠ b.toNat := fun h => hne (UInt8.toNat_inj.1 h)
    simp only [lexLess, if_neg (Ne.symm hne), decide_eq_true_eq, UInt8.lt_iff_toNat_lt]
    omega

end Dictionary

section Numbers

variable {s t : Bytes} {u v : Nat} {a b : UInt8}

theorem toNat_eq_of_isDigit (hb : isDigit b = true) : b.toNat = 48 + digitValue b := by
  simp only [isDigit, Bool.and_eq_true, decide_eq_true_eq, UInt8.le_iff_toNat_le] at hb
  have h : 48 ≤ b.toNat := hb.1
  rw [digitValue]
  omega

theorem digitsAfter_lt (huv : u < v) (hs : ∀ b ∈ s, isDigit b = true)
    (hlen : s.length ≤ t.length) : digitsAfter u s < digitsAfter v t := by
  induction s generalizing u v t with
  | nil => exact Nat.lt_of_lt_of_le huv (le_digitsAfter v t)
  | cons a s ih =>
    cases t with
    | nil => cases hlen
    | cons b t =>
      obtain ⟨ha, hs⟩ := List.forall_mem_cons.1 hs
      have hle := digitValue_le ha
      change digitsAfter (u * 10 + digitValue a) s < digitsAfter (v * 10 + digitValue b) t
      exact ih (by omega) hs (Nat.le_of_succ_le_succ hlen)

theorem lexLess_iff_digitsAfter (hs : ∀ b ∈ s, isDigit b = true) (ht : ∀ b ∈ t, isDigit b = true)
    (hlen : s.length = t.length) (v : Nat) :
    lexLess s t = true ↔ digitsAfter v s < digitsAfter v t := by
  induction s generalizing t v with
  | nil =>
    obtain rfl := List.length_eq_zero_iff.1 hlen.symm
    simp [lexLess]
  | cons a s ih =>
    cases t with
    | nil => cases hlen
    | cons b t =>
      obtain ⟨ha, hs'⟩ := List.forall_mem_cons.1 hs
      obtain ⟨hb, ht'⟩ := List.forall_mem_cons.1 ht
      have hlen' : s.length = t.length := Nat.succ.inj hlen
      have ha' := toNat_eq_of_isDigit ha
      have hb' := toNat_eq_of_isDigit hb
      change _ ↔ digitsAfter (v * 10 + digitValue a) s < digitsAfter (v * 10 + digitValue b) t
      by_cases hab : a = b
      · subst hab
        simpa [lexLess] using ih hs' ht' hlen' (v * 10 + digitValue a)
      · have hval : a.toNat ≠ b.toNat := fun h => hab (UInt8.toNat_inj.1 h)
        simp only [lexLess, if_neg hab, decide_eq_true_eq, UInt8.lt_iff_toNat_lt]
        -- the first digits that differ decide, whatever comes after them
        rcases Nat.lt_or_gt_of_ne hval with hlt | hlt
        · have hless : digitsAfter (v * 10 + digitValue a) s <
              digitsAfter (v * 10 + digitValue b) t := digitsAfter_lt (by omega) hs' (by omega)
          omega
        · have hless : digitsAfter (v * 10 + digitValue b) t <
              digitsAfter (v * 10 + digitValue a) s := digitsAfter_lt (by omega) ht' (by omega)
          omega

theorem digitsValue_stripZeros (s : Bytes) : digitsValue (stripZeros s) = digitsValue s := by
  induction s with
  | nil => rfl
  | cons b s ih =>
    rw [stripZeros, List.dropWhile_cons]
    split
    · rename_i hb
      obtain rfl := eq_of_beq hb
      exact ih
    · rfl

theorem forall_isDigit_stripZeros (hs : ∀ b ∈ s, isDigit b = true) :
    ∀ b ∈ stripZeros s, isDigit b = true :=
  fun b hb => hs b (List.dropWhile_subset _ hb)

theorem ne_zero_of_stripZeros (h : stripZeros s = b :: t) : b ≠ 0x30 := by
  have hhead := List.head?_dropWhile_not (· == 0x30) s
  rw [stripZeros] at h
  rw [h] at hhead
  simpa using hhead

theorem digitsValue_lt_of_length_lt (hs : ∀ b ∈ s, isDigit b = true)
    (ht : ∀ b ∈ t, isDigit b = true) (hlen : (stripZeros s).length < (stripZeros t).length) :
    digitsValue s < digitsValue t := by
  rw [← digitsValue_stripZeros s, ← digitsValue_stripZeros t]
  cases hstrip : stripZeros t with
  | nil =>
    rw [hstrip] at hlen
    cases hlen
  | cons b t' =>
    have hdigit : isDigit b = true := by
      refine forall_isDigit_stripZeros ht b ?_
      rw [hstrip]
      exact List.mem_cons_self
    have hval := toNat_eq_of_isDigit hdigit
    have hne : b.toNat ≠ 48 := fun h => ne_zero_of_stripZeros hstrip (UInt8.toNat_inj.1 h)
    rw [hstrip, List.length_cons] at hlen
    change digitsAfter 0 (stripZeros s) < digitsAfter (0 * 10 + digitValue b) t'
    exact digitsAfter_lt (by omega) (forall_isDigit_stripZeros hs) (by omega)

theorem numericLess_iff (hs : ∀ b ∈ s, isDigit b = true) (ht : ∀ b ∈ t, isDigit b = true) :
    numericLess s t = true ↔ digitsValue s < digitsValue t := by
  simp only [numericLess]
  split
  · rename_i hlen
    rw [lexLess_iff_digitsAfter (forall_isDigit_stripZeros hs) (forall_isDigit_stripZeros ht) hlen
      0]
    change digitsValue (stripZeros s) < digitsValue (stripZeros t) ↔ _
    rw [digitsValue_stripZeros, digitsValue_stripZeros]
  · rename_i hlen
    rw [decide_eq_true_iff]
    rcases Nat.lt_or_gt_of_ne hlen with hlt | hlt
    · have hless := digitsValue_lt_of_length_lt hs ht hlt
      omega
    · have hless := digitsValue_lt_of_length_lt ht hs hlt
      omega

end Numbers

section Values

variable {s t u : Bytes}

theorem less_iff_of_allDigits (hs : s.allDigits = true) (ht : t.allDigits = true) :
    less s t = true ↔ digitsValue s < digitsValue t := by
  rw [less, hs, ht, Bool.and_self, if_pos rfl]
  exact numericLess_iff (forall_isDigit hs) (forall_isDigit ht)

theorem less_eq_lexLess (h : ¬ (s.allDigits = true ∧ t.allDigits = true)) :
    less s t = lexLess s t := by
  rw [less, if_neg (by simpa using h)]

theorem less_asymm (h : less s t = true) : less t s = false := by
  by_cases hd : s.allDigits = true ∧ t.allDigits = true
  · rw [less_iff_of_allDigits hd.1 hd.2] at h
    rw [Bool.eq_false_iff, Ne, less_iff_of_allDigits hd.2 hd.1]
    omega
  · rw [less_eq_lexLess hd] at h
    rw [less_eq_lexLess fun h' => hd h'.symm]
    exact lexLess_asymm h

theorem less_irrefl (s : Bytes) : less s s = false := by
  rw [Bool.eq_false_iff]
  intro h
  cases h.symm.trans (less_asymm h)

theorem not_less_iff : (less s t = false ∧ less t s = false) ↔
    s = t ∨ s.allDigits = true ∧ t.allDigits = true ∧ digitsValue s = digitsValue t := by
  by_cases hd : s.allDigits = true ∧ t.allDigits = true
  · obtain ⟨hs, ht⟩ := hd
    rw [Bool.eq_false_iff, Bool.eq_false_iff, Ne, Ne, less_iff_of_allDigits hs ht,
      less_iff_of_allDigits ht hs]
    constructor
    · intro h
      exact .inr ⟨hs, ht, by omega⟩
    · rintro (rfl | ⟨-, -, hval⟩)
      · simp
      · omega
  · rw [less_eq_lexLess hd, less_eq_lexLess fun h => hd h.symm]
    constructor
    · rintro ⟨h, h'⟩
      rcases lexLess_or_eq s t with hlt | heq | hlt
      · cases h.symm.trans hlt
      · exact .inl heq
      · cases h'.symm.trans hlt
    · rintro (rfl | ⟨hs, ht, -⟩)
      · exact ⟨lexLess_irrefl s, lexLess_irrefl s⟩
      · exact absurd ⟨hs, ht⟩ hd

end Values

/-- What it is for one value to be less than another. Texts of digits are as the numbers that they
write, of whatever size and with however many zeros before them; of other texts the one that comes
first in the dictionary is the less. So two values of which neither is less are the same text, or
they write the same number. -/
theorem less_exact (s t : Bytes) :
    (s.allDigits = true → t.allDigits = true →
      (less s t = true ↔ digitsValue s < digitsValue t)) ∧
    (¬ (s.allDigits = true ∧ t.allDigits = true) →
      (less s t = true ↔ List.Lex (· < ·) s t)) ∧
    ((less s t = false ∧ less t s = false) ↔
      s = t ∨ s.allDigits = true ∧ t.allDigits = true ∧ digitsValue s = digitsValue t) := by
  refine ⟨less_iff_of_allDigits, fun h => ?_, not_less_iff⟩
  rw [less_eq_lexLess h, lexLess_iff]

/-- Two texts of digits that the dictionary has in an order that their numbers do not have, and
between them a text that is not all digits. -/
def Discord (s t u : Bytes) : Prop :=
  (s.allDigits = true ∧ t.allDigits = false ∧ u.allDigits = true) ∧
  lexLess s t = true ∧ lexLess t u = true ∧ ¬ digitsValue s < digitsValue u

instance (s t u : Bytes) : Decidable (Discord s t u) := inferInstanceAs (Decidable (_ ∧ _))

/-- Texts without a discord among them. -/
def Concordant (ts : List Bytes) : Prop := ∀ s ∈ ts, ∀ t ∈ ts, ∀ u ∈ ts, ¬ Discord s t u

instance (ts : List Bytes) : Decidable (Concordant ts) :=
  inferInstanceAs (Decidable (∀ s ∈ ts, ∀ t ∈ ts, ∀ u ∈ ts, ¬ Discord s t u))

section Order

variable {ts : List Bytes} {s t u : Bytes}

theorem Discord.not_trans (h : Discord s t u) :
    less s t = true ∧ less t u = true ∧ less s u = false := by
  obtain ⟨⟨hs, ht, hu⟩, hst, htu, hval⟩ := h
  rw [less_eq_lexLess (by simp [ht]), less_eq_lexLess (by simp [ht]), Bool.eq_false_iff, Ne,
    less_iff_of_allDigits hs hu]
  exact ⟨hst, htu, hval⟩

theorem less_trans_of_not_discord (h₁ : ¬ Discord s t u) (h₂ : ¬ Discord t u s)
    (h₃ : ¬ Discord u s t) (hst : less s t = true) (htu : less t u = true) :
    less s u = true := by
  by_cases hsu : s.allDigits = true ∧ u.allDigits = true
  · obtain ⟨hs, hu⟩ := hsu
    cases ht : t.allDigits with
    | true =>
      rw [less_iff_of_allDigits hs ht] at hst
      rw [less_iff_of_allDigits ht hu] at htu
      rw [less_iff_of_allDigits hs hu]
      omega
    | false =>
      rw [less_eq_lexLess (by simp [ht])] at hst htu
      rw [less_iff_of_allDigits hs hu]
      exact Decidable.not_not.1 fun hval => h₁ ⟨⟨hs, ht, hu⟩, hst, htu, hval⟩
  · rw [less_eq_lexLess hsu]
    rcases lexLess_or_eq s u with hlt | rfl | hus
    · exact hlt
    · cases (less_asymm hst).symm.trans htu
    -- the dictionary has `u` before `s`, so one of the two steps is by the numbers
    by_cases hst' : s.allDigits = true ∧ t.allDigits = true
    · obtain ⟨hs, ht⟩ := hst'
      have hu : u.allDigits = false := by simpa [hs] using hsu
      rw [less_iff_of_allDigits hs ht] at hst
      rw [less_eq_lexLess (by simp [hu])] at htu
      exact absurd ⟨⟨ht, hu, hs⟩, htu, hus, by omega⟩ h₂
    by_cases htu' : t.allDigits = true ∧ u.allDigits = true
    · obtain ⟨ht, hu⟩ := htu'
      have hs : s.allDigits = false := by simpa [hu] using hsu
      rw [less_iff_of_allDigits ht hu] at htu
      rw [less_eq_lexLess (by simp [hs])] at hst
      exact absurd ⟨⟨hu, hs, ht⟩, hus, hst, by omega⟩ h₃
    rw [less_eq_lexLess hst'] at hst
    rw [less_eq_lexLess htu'] at htu
    exact lexLess_trans hst htu

namespace Concordant

theorem less_trans (h : Concordant ts) (hs : s ∈ ts) (ht : t ∈ ts) (hu : u ∈ ts)
    (hst : less s t = true) (htu : less t u = true) : less s u = true :=
  less_trans_of_not_discord (h s hs t ht u hu) (h t ht u hu s hs) (h u hu s hs t ht) hst htu

theorem not_less_trans (h : Concordant ts) (hs : s ∈ ts) (ht : t ∈ ts) (hu : u ∈ ts)
    (hts : less t s = false) (hut : less u t = false) : less u s = false := by
  rw [Bool.eq_false_iff]
  intro hus
  cases hst : less s t with
  | true => cases hut.symm.trans (h.less_trans hu hs ht hus hst)
  | false =>
    cases htu : less t u with
    | true => cases hts.symm.trans (h.less_trans ht hu hs htu hus)
    | false =>
      -- neither pair is ordered, and then the first and the last are alike as well
      have hsu : s = u ∨
          s.allDigits = true ∧ u.allDigits = true ∧ digitsValue s = digitsValue u := by
        rcases not_less_iff.1 ⟨hst, hts⟩ with rfl | ⟨hs, ht, hval⟩
        · exact not_less_iff.1 ⟨htu, hut⟩
        · rcases not_less_iff.1 ⟨htu, hut⟩ with rfl | ⟨-, hu, hval'⟩
          · exact .inr ⟨hs, ht, hval⟩
          · exact .inr ⟨hs, hu, hval.trans hval'⟩
      cases (not_less_iff.2 hsu).2.symm.trans hus

end Concordant

end Order

end TildeText.Bytes
