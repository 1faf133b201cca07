import TildeText.Buffer

namespace TildeText.Bytes

/-- A text of digits, with or without a minus sign before them, between white space. -/
structure IsNumeral (s : Bytes) (negative : Bool) (digits : Bytes) : Prop where
  allDigits : allDigits digits = true
  spelled : ∃ before after, s = before ++ (if negative then [0x2d] else []) ++ digits ++ after ∧
    before.all isBlank = true ∧ after.all isBlank = true

def signed (negative : Bool) (v : Nat) : Int := if negative then -v else v

/-- The digits of a text after white space and a sign. -/
def digitRun (s : Bytes) : Bytes := (splitSign (s.dropWhile isBlank)).2.takeWhile isDigit

/-- The operations for one more digit give on words what they give on integers. -/
structure ExactPush (n : Int64) (b : UInt8) : Prop where
  room : (numberLimit - digitWord b).toInt = numberLimit.toInt - (digitWord b).toInt
  bound : ((numberLimit - digitWord b) / 10).toInt = (numberLimit - digitWord b).toInt.tdiv 10
  scaled : n ≤ (numberLimit - digitWord b) / 10 → (n * 10).toInt = n.toInt * 10
  pushed : n ≤ (numberLimit - digitWord b) / 10 →
    (n * 10 + digitWord b).toInt = n.toInt * 10 + (digitWord b).toInt

section Words

variable {n n' : Int64} {b : UInt8} {v : Nat}

theorem digitValue_le (hb : isDigit b = true) : digitValue b ≤ 9 := by
  simp only [isDigit, Bool.and_eq_true, decide_eq_true_eq, UInt8.le_iff_toNat_le] at hb
  have h : b.toNat ≤ 57 := hb.2
  rw [digitValue]
  omega

theorem toInt_digitWord (hb : isDigit b = true) : (digitWord b).toInt = digitValue b := by
  have h := digitValue_le hb
  exact Int64.toInt_ofNat_of_lt (by omega)

theorem toInt_numberLimit : numberLimit.toInt = 9223372036854775807 := rfl

theorem toInt_ten : (10 : Int64).toInt = 10 := rfl

theorem toInt_le_limit (n : Int64) : n.toInt ≤ 9223372036854775807 := n.toInt_le

theorem exactPush (hn : 0 ≤ n.toInt) (hb : isDigit b = true) : ExactPush n b := by
  have hd := toInt_digitWord hb
  have hle := digitValue_le hb
  have hroom : (numberLimit - digitWord b).toInt = numberLimit.toInt - (digitWord b).toInt := by
    rw [Int64.toInt_sub, toInt_numberLimit, hd]
    exact Int.bmod_eq_of_le (by omega) (by omega)
  have hbound : ((numberLimit - digitWord b) / 10).toInt =
      (numberLimit - digitWord b).toInt.tdiv 10 := by
    rw [Int64.toInt_div, toInt_ten, hroom, toInt_numberLimit, hd,
      Int.tdiv_eq_ediv_of_nonneg (by omega)]
    exact Int.bmod_eq_of_le (by omega) (by omega)
  have hguard (h : n ≤ (numberLimit - digitWord b) / 10) :
      n.toInt * 10 + digitValue b ≤ 9223372036854775807 := by
    rw [Int64.le_iff_toInt_le, hbound, hroom, toInt_numberLimit, hd,
      Int.tdiv_eq_ediv_of_nonneg (by omega)] at h
    omega
  have hscaled (h : n ≤ (numberLimit - digitWord b) / 10) : (n * 10).toInt = n.toInt * 10 := by
    have hg := hguard h
    rw [Int64.toInt_mul, toInt_ten]
    exact Int.bmod_eq_of_le (by omega) (by omega)
  refine ⟨hroom, hbound, hscaled, fun h => ?_⟩
  have hg := hguard h
  rw [Int64.toInt_add, hscaled h, hd]
  exact Int.bmod_eq_of_le (by omega) (by omega)

theorem pushDigit_eq_some_iff (hn : 0 ≤ n.toInt) (hb : isDigit b = true) :
    pushDigit n b = some n' ↔ n'.toInt = n.toInt * 10 + digitValue b := by
  have hd := toInt_digitWord hb
  have hle := digitValue_le hb
  have hexact := exactPush hn hb
  rw [pushDigit]
  split
  · rename_i hgt
    constructor
    · intro h
      cases h
    intro h
    rw [gt_iff_lt, Int64.lt_iff_toInt_lt, hexact.bound, hexact.room, toInt_numberLimit, hd,
      Int.tdiv_eq_ediv_of_nonneg (by omega)] at hgt
    have hn' := toInt_le_limit n'
    omega
  · rename_i hgt
    rw [Option.some.injEq, ← Int64.toInt_inj, hexact.pushed (Int64.not_lt.1 hgt), hd]
    exact eq_comm

def digitsAfter (v : Nat) (digits : Bytes) : Nat :=
  digits.foldl (fun n b => n * 10 + digitValue b) v

theorem le_digitsAfter (v : Nat) (digits : Bytes) : v ≤ digitsAfter v digits := by
  induction digits generalizing v with
  | nil => exact Nat.le_refl v
  | cons b digits ih =>
    calc
      v ≤ v * 10 + digitValue b := by omega
      _ ≤ digitsAfter (v * 10 + digitValue b) digits := ih _

theorem foldlM_pushDigit {digits : Bytes} (hv : n.toInt = v)
    (hd : ∀ b ∈ digits, isDigit b = true) :
    digits.foldlM pushDigit n = some n' ↔ n'.toInt = digitsAfter v digits := by
  induction digits generalizing n v with
  | nil =>
    simp only [List.foldlM_nil, digitsAfter, List.foldl_nil]
    rw [← hv, Int64.toInt_inj]
    exact Option.some_inj.trans eq_comm
  | cons b digits ih =>
    obtain ⟨hb, hds⟩ := List.forall_mem_cons.1 hd
    have hpush (k : Int64) : pushDigit n b = some k ↔ k.toInt = (v * 10 + digitValue b : Nat) := by
      rw [pushDigit_eq_some_iff (by omega) hb, hv]
      push_cast
      rfl
    have hstep : digitsAfter v (b :: digits) = digitsAfter (v * 10 + digitValue b) digits := rfl
    rw [List.foldlM_cons, hstep]
    cases hp : pushDigit n b with
    | some k => exact ih ((hpush k).1 hp) hds
    | none =>
      constructor
      · intro h
        cases h
      intro h
      -- a word for the whole would leave room for a word for its beginning
      have hle := le_digitsAfter (v * 10 + digitValue b) digits
      have hn' := toInt_le_limit n'
      have hword : (Int64.ofNat (v * 10 + digitValue b)).toInt = (v * 10 + digitValue b : Nat) :=
        Int64.toInt_ofNat_of_lt (by omega)
      rw [(hpush _).2 hword] at hp
      cases hp

theorem magnitude?_eq_some_iff {digits : Bytes} (hd : ∀ b ∈ digits, isDigit b = true) :
    magnitude? digits = some n ↔ digits ≠ [] ∧ n.toInt = digitsValue digits := by
  rw [magnitude?]
  split
  · simp_all
  · rw [foldlM_pushDigit (v := 0) rfl hd]
    simp_all [digitsValue, digitsAfter]

theorem toInt_neg_of_nonneg (hn : 0 ≤ n.toInt) : (-n).toInt = -n.toInt := by
  have hle := toInt_le_limit n
  rw [Int64.toInt_neg]
  exact Int.bmod_eq_of_le (by omega) (by omega)

end Words

section Reading

variable {s digits body : Bytes} {negative : Bool}

theorem isBlank_of_isDigit {b : UInt8} (hb : isDigit b = true) : isBlank b = false := by
  simp only [isDigit, isBlank, Bool.and_eq_true, decide_eq_true_eq, decide_eq_false_iff_not,
    UInt8.le_iff_toNat_le] at hb ⊢
  have h : 48 ≤ b.toNat := hb.1
  have hblank : (0x20 : UInt8).toNat = 32 := rfl
  omega

theorem forall_isDigit (hd : digits.allDigits = true) : ∀ b ∈ digits, isDigit b = true := by
  simp only [allDigits, Bool.and_eq_true, List.all_eq_true] at hd
  exact hd.2

theorem ne_nil_of_allDigits (hd : digits.allDigits = true) : digits ≠ [] := by
  rintro rfl
  cases hd

theorem allDigits_of_forall (hne : digits ≠ []) (hd : ∀ b ∈ digits, isDigit b = true) :
    digits.allDigits = true := by
  rw [allDigits, List.all_eq_true.2 hd]
  simpa using hne

theorem splitSign_eq (negative : Bool) (hd : digits.allDigits = true) (after : Bytes) :
    splitSign ((if negative then [0x2d] else []) ++ digits ++ after) =
      (negative, digits ++ after) := by
  cases negative with
  | true => rfl
  | false =>
    obtain ⟨b, rest, rfl⟩ := List.exists_cons_of_ne_nil (ne_nil_of_allDigits hd)
    have hb := forall_isDigit hd b List.mem_cons_self
    have hne : (b == 0x2d) = false := by
      rw [beq_eq_false_iff_ne]
      rintro rfl
      cases hb
    simp [splitSign, hne]

theorem eq_of_splitSign (h : splitSign s = (negative, body)) :
    s = (if negative then [0x2d] else []) ++ body := by
  cases s with
  | nil =>
    cases h
    rfl
  | cons b rest =>
    rw [splitSign] at h
    split at h
    · rename_i hb
      cases h
      simpa using hb
    · cases h
      rfl

theorem IsNumeral.splitSign_eq (h : s.IsNumeral negative digits) :
    ∃ after, splitSign (s.dropWhile isBlank) = (negative, digits ++ after) ∧
      after.all isBlank = true := by
  obtain ⟨hd, before, after, rfl, hbefore, hafter⟩ := h
  obtain ⟨b, rest, hcons, hb⟩ : ∃ b rest,
      (if negative then [0x2d] else []) ++ digits ++ after = b :: rest ∧ isBlank b = false := by
    cases negative with
    | true => exact ⟨_, _, rfl, rfl⟩
    | false =>
      obtain ⟨b, rest, rfl⟩ := List.exists_cons_of_ne_nil (ne_nil_of_allDigits hd)
      exact ⟨b, rest ++ after, rfl, isBlank_of_isDigit (forall_isDigit hd b List.mem_cons_self)⟩
  have hdrop : (before ++ (if negative then [0x2d] else []) ++ digits ++ after).dropWhile isBlank =
      (if negative then [0x2d] else []) ++ digits ++ after := by
    rw [List.append_assoc, List.append_assoc, ← List.append_assoc _ digits,
      List.dropWhile_append_of_pos (List.all_eq_true.1 hbefore), hcons,
      List.dropWhile_cons_of_neg (by simp [hb])]
  exact ⟨after, by rw [hdrop, Bytes.splitSign_eq negative hd], hafter⟩

theorem span_digits (hd : ∀ b ∈ digits, isDigit b = true) {after : Bytes}
    (hafter : after.all isBlank = true) :
    (digits ++ after).takeWhile isDigit = digits ∧ (digits ++ after).dropWhile isDigit = after := by
  rw [List.takeWhile_append_of_pos hd, List.dropWhile_append_of_pos hd]
  cases after with
  | nil => simp
  | cons b after =>
    have hb : ¬ isDigit b = true := by
      intro hb
      simp [isBlank_of_isDigit hb] at hafter
    rw [List.takeWhile_cons_of_neg hb, List.dropWhile_cons_of_neg hb, List.append_nil]
    exact ⟨rfl, rfl⟩

theorem isNumeral_iff :
    s.IsNumeral negative digits ↔ ∃ body, splitSign (s.dropWhile isBlank) = (negative, body) ∧
      (body.dropWhile isDigit).all isBlank = true ∧ body.takeWhile isDigit = digits ∧
      digits ≠ [] := by
  constructor
  · intro h
    obtain ⟨after, hsplit, hafter⟩ := h.splitSign_eq
    obtain ⟨htake, hdrop⟩ := span_digits (forall_isDigit h.allDigits) hafter
    exact ⟨_, hsplit, by rwa [hdrop], htake, ne_nil_of_allDigits h.allDigits⟩
  · rintro ⟨body, hsplit, hafter, rfl, hne⟩
    refine ⟨allDigits_of_forall hne (List.all_eq_true.1 List.all_takeWhile), s.takeWhile isBlank,
      body.dropWhile isDigit, ?_, List.all_takeWhile, hafter⟩
    rw [List.append_assoc, List.append_assoc, List.takeWhile_append_dropWhile,
      ← eq_of_splitSign hsplit, List.takeWhile_append_dropWhile]

theorem toInt_signed {k : Int64} {v : Nat} (hk : k.toInt = v) (negative : Bool) :
    (if negative then -k else k).toInt = signed negative v := by
  cases negative with
  | true => exact (toInt_neg_of_nonneg (by omega)).trans (congrArg Neg.neg hk)
  | false => exact hk

theorem IsNumeral.number?_eq (h : s.IsNumeral negative digits)
    (hle : digitsValue digits ≤ 9223372036854775807) :
    ∃ n, number? s = some n ∧ n.toInt = signed negative (digitsValue digits) := by
  obtain ⟨body, hsplit, hblank, rfl, hne⟩ := isNumeral_iff.1 h
  have hvalue : (Int64.ofNat (digitsValue (body.takeWhile isDigit))).toInt =
      digitsValue (body.takeWhile isDigit) := Int64.toInt_ofNat_of_lt (by omega)
  have hmagnitude :=
    (magnitude?_eq_some_iff (List.all_eq_true.1 List.all_takeWhile)).2 ⟨hne, hvalue⟩
  refine ⟨_, ?_, toInt_signed hvalue negative⟩
  simp only [number?, hsplit]
  rw [if_pos hblank, hmagnitude, Option.map_some]

theorem number?_eq_some_iff {n : Int64} :
    number? s = some n ↔ ∃ negative digits, s.IsNumeral negative digits ∧
      digitsValue digits ≤ 9223372036854775807 ∧
      n.toInt = signed negative (digitsValue digits) := by
  constructor
  · intro h
    cases hsplit : splitSign (s.dropWhile isBlank) with
    | mk negative body =>
      simp only [number?, hsplit] at h
      split at h
      · rename_i hblank
        obtain ⟨k, hk, rfl⟩ := Option.map_eq_some_iff.1 h
        obtain ⟨hne, hvalue⟩ :=
          (magnitude?_eq_some_iff (List.all_eq_true.1 List.all_takeWhile)).1 hk
        have hle := toInt_le_limit k
        exact ⟨negative, _, isNumeral_iff.2 ⟨body, hsplit, hblank, rfl, hne⟩, by omega,
          toInt_signed hvalue negative⟩
      · cases h
  · rintro ⟨negative, digits, hnumeral, hle, hn⟩
    obtain ⟨n', hn', hvalue⟩ := hnumeral.number?_eq hle
    rw [hn', Int64.toInt_inj.1 (hvalue.trans hn.symm)]

theorem nonneg_of_prefix {before : Bytes} {b : UInt8} {n : Int64} (h : before ++ [b] <+: s.digitRun)
    (hn : before.foldlM pushDigit 0 = some n) : 0 ≤ n.toInt ∧ isDigit b = true := by
  have hd : ∀ x ∈ before ++ [b], isDigit x = true := fun x hx =>
    List.all_eq_true.1 List.all_takeWhile x (h.subset hx)
  obtain ⟨hbefore, hb⟩ := List.forall_mem_append.1 hd
  rw [foldlM_pushDigit (v := 0) rfl hbefore] at hn
  exact ⟨by omega, hb b List.mem_cons_self⟩

end Reading

/-- Numbers are read exactly. A text is read as a number just if it is a numeral with a value that
does not pass the limit, and the number is this value with its sign; in all other cases nothing is
read. Whatever the text, each operation on the way gives on words what it gives on integers: those
for one more digit, after any of the digits, and the change of sign at the end. -/
theorem number?_exact (s : Bytes) :
    (∀ n, number? s = some n ↔ ∃ negative digits, s.IsNumeral negative digits ∧
      digitsValue digits ≤ 9223372036854775807 ∧
      n.toInt = signed negative (digitsValue digits)) ∧
    (number? s = none ↔ ∀ negative digits, s.IsNumeral negative digits →
      9223372036854775807 < digitsValue digits) ∧
    (∀ before b n, before ++ [b] <+: s.digitRun → before.foldlM pushDigit 0 = some n →
      ExactPush n b) ∧
    ∀ n, magnitude? s.digitRun = some n → (-n).toInt = -n.toInt := by
  refine ⟨fun n => number?_eq_some_iff, ?_, fun before b n hbefore hn => ?_, fun n hn => ?_⟩
  · constructor
    · intro hnone negative digits hnumeral
      refine Nat.lt_of_not_le fun hle => ?_
      obtain ⟨n, hn, -⟩ := hnumeral.number?_eq hle
      rw [hnone] at hn
      cases hn
    · intro h
      cases hn : number? s with
      | none => rfl
      | some n =>
        obtain ⟨negative, digits, hnumeral, hle, -⟩ := number?_eq_some_iff.1 hn
        exact absurd (h negative digits hnumeral) (Nat.not_lt.2 hle)
  · obtain ⟨hnonneg, hb⟩ := nonneg_of_prefix hbefore hn
    exact exactPush hnonneg hb
  · have hdigits : ∀ b ∈ s.digitRun, isDigit b = true := List.all_eq_true.1 List.all_takeWhile
    obtain ⟨-, hvalue⟩ := (magnitude?_eq_some_iff hdigits).1 hn
    exact toInt_neg_of_nonneg (by omega)

section Writing

theorem digitChar_spec : ∀ d < 10, isDigit (Nat.digitChar d).toUInt8 = true ∧
    digitValue (Nat.digitChar d).toUInt8 = d := by
  decide

theorem digitsValue_concat (digits : Bytes) (b : UInt8) :
    digitsValue (digits ++ [b]) = digitsValue digits * 10 + digitValue b := by
  rw [digitsValue, List.foldl_append]
  rfl

theorem decimalNat_spec (n : Nat) :
    (decimalNat n).allDigits = true ∧ digitsValue (decimalNat n) = n := by
  induction n using Nat.strongRecOn with
  | ind n ih =>
    obtain ⟨hdigit, hvalue⟩ := digitChar_spec (n % 10) (Nat.mod_lt n (by decide))
    by_cases hn : n < 10
    · rw [Nat.mod_eq_of_lt hn] at hdigit hvalue
      rw [decimalNat, Nat.toDigits_of_lt_base hn]
      exact ⟨by simp [allDigits, hdigit], by simp [digitsValue, hvalue]⟩
    · obtain ⟨hall, hv⟩ := ih (n / 10) (by omega)
      have hconcat : decimalNat n = decimalNat (n / 10) ++ [(Nat.digitChar (n % 10)).toUInt8] := by
        rw [decimalNat, Nat.toDigits_of_base_le (by decide) (by omega), List.map_append]
        rfl
      rw [hconcat]
      refine ⟨allDigits_of_forall (by simp) ?_, by rw [digitsValue_concat, hv, hvalue]; omega⟩
      exact List.forall_mem_append.2 ⟨forall_isDigit hall, by simpa using hdigit⟩

theorem isNumeral_decimal (n : Int) :
    (decimal n).IsNumeral (decide (n < 0)) (decimalNat n.natAbs) := by
  refine ⟨(decimalNat_spec _).1, [], [], ?_, rfl, rfl⟩
  rw [decimal]
  split
  · rename_i hn
    simp [hn]
  · rename_i hn
    simp [hn]

theorem number?_decimal {n : Int64} (hn : n ≠ Int64.minValue) :
    number? (decimal n.toInt) = some n := by
  have hmin : n.toInt ≠ -9223372036854775808 := fun h => hn (Int64.toInt_inj.1 h)
  have hle := toInt_le_limit n
  have hge := n.le_toInt
  have hvalue := (decimalNat_spec n.toInt.natAbs).2
  refine number?_eq_some_iff.2 ⟨_, _, isNumeral_decimal n.toInt, by omega, ?_⟩
  rw [hvalue, signed]
  split
  · rename_i hneg
    have hneg : n.toInt < 0 := of_decide_eq_true hneg
    omega
  · rename_i hneg
    have hneg : ¬ n.toInt < 0 := fun h => hneg (decide_eq_true h)
    omega

end Writing

end TildeText.Bytes
