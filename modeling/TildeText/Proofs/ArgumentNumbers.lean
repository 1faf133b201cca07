import TildeText.Frame
import TildeText.Proofs.Numerals

namespace TildeText

namespace Bytes

structure ExactDigit (n : Int64) (b : UInt8) : Prop where
  scaled : (n * 10).toInt = n.toInt * 10
  pushed : (n * 10 + digitWord b).toInt = n.toInt * 10 + digitValue b

/-- Digits are read to their number, or up to where that is beyond the limit. Each of them that is
read is read exactly, from where the ones before it have led. -/
structure ReadExactly (digits : Bytes) : Prop where
  number : (argumentNumber 0 digits).toInt = min (digitsValue digits) (argumentLimit + 1)
  digit (before : Bytes) (b : UInt8) (after : Bytes) : digits = before ++ b :: after →
    digitsValue before ≤ argumentLimit →
      ExactDigit (argumentNumber 0 before) b ∧
      argumentNumber 0 digits = argumentNumber (argumentNumber 0 before) (b :: after)
  ended (before after : Bytes) : digits = before ++ after → argumentLimit < digitsValue before →
    argumentNumber 0 digits = argumentNumber 0 before

section

variable {n : Int64} {b : UInt8} {v : Nat} {digits rest : Bytes}

theorem toInt_argumentLimit : (Int64.ofNat argumentLimit).toInt = argumentLimit := rfl

theorem exactDigit (hn : n.toInt = v) (hle : v ≤ argumentLimit) (hb : isDigit b = true) :
    ExactDigit n b := by
  have hd := toInt_digitWord hb
  have hdigit := digitValue_le hb
  rw [argumentLimit] at hle
  have hscaled : (n * 10).toInt = n.toInt * 10 := by
    rw [Int64.toInt_mul, toInt_ten]
    exact Int.bmod_eq_of_le (by omega) (by omega)
  refine ⟨hscaled, ?_⟩
  rw [Int64.toInt_add, hscaled, hd]
  exact Int.bmod_eq_of_le (by omega) (by omega)

theorem toInt_pushed (hn : n.toInt = v) (hle : v ≤ argumentLimit) (hb : isDigit b = true) :
    (n * 10 + digitWord b).toInt = (v * 10 + digitValue b : Nat) := by
  rw [(exactDigit hn hle hb).pushed, hn]
  push_cast
  rfl

theorem argumentNumber_cons (hn : n.toInt = v) (hle : v ≤ argumentLimit) (hb : isDigit b = true)
    (digits : Bytes) :
    argumentNumber n (b :: digits) =
      if v * 10 + digitValue b ≤ argumentLimit then argumentNumber (n * 10 + digitWord b) digits
      else Int64.ofNat (argumentLimit + 1) := by
  rw [argumentNumber]
  simp only [gt_iff_lt, Int64.lt_iff_toInt_lt, toInt_pushed hn hle hb, toInt_argumentLimit,
    Int.ofNat_lt, ← Nat.not_le, ite_not]

theorem toInt_argumentNumber (hn : n.toInt = v) (hle : v ≤ argumentLimit)
    (hd : ∀ b ∈ digits, isDigit b = true) :
    (argumentNumber n digits).toInt = min (digitsAfter v digits) (argumentLimit + 1) := by
  induction digits generalizing n v with
  | nil =>
    rw [argumentNumber, hn, digitsAfter, List.foldl_nil]
    omega
  | cons b digits ih =>
    obtain ⟨hb, hds⟩ := List.forall_mem_cons.1 hd
    have hstep : digitsAfter v (b :: digits) = digitsAfter (v * 10 + digitValue b) digits := rfl
    rw [argumentNumber_cons hn hle hb, hstep]
    split
    · rename_i hle'
      exact ih (toInt_pushed hn hle hb) hle' hds
    · have hmore := le_digitsAfter (v * 10 + digitValue b) digits
      have hend : (Int64.ofNat (argumentLimit + 1)).toInt = (argumentLimit + 1 : Nat) := rfl
      rw [hend]
      omega

theorem argumentNumber_append (hn : n.toInt = v) (hle : v ≤ argumentLimit)
    (hd : ∀ b ∈ digits, isDigit b = true) (rest : Bytes) :
    argumentNumber n (digits ++ rest) =
      if digitsAfter v digits ≤ argumentLimit then argumentNumber (argumentNumber n digits) rest
      else argumentNumber n digits := by
  induction digits generalizing n v with
  | nil => exact (if_pos hle).symm
  | cons b digits ih =>
    obtain ⟨hb, hds⟩ := List.forall_mem_cons.1 hd
    have hstep : digitsAfter v (b :: digits) = digitsAfter (v * 10 + digitValue b) digits := rfl
    rw [List.cons_append, argumentNumber_cons hn hle hb, argumentNumber_cons hn hle hb, hstep]
    split
    · rename_i hle'
      exact ih (toInt_pushed hn hle hb) hle' hds
    · have hmore := le_digitsAfter (v * 10 + digitValue b) digits
      rw [if_neg (by omega)]

theorem toInt_argumentNumber_zero (hd : ∀ b ∈ digits, isDigit b = true) :
    (argumentNumber 0 digits).toInt = min (digitsValue digits) (argumentLimit + 1) :=
  toInt_argumentNumber (v := 0) rfl (Nat.zero_le _) hd

theorem readExactly (hdigits : digits.allDigits = true) : ReadExactly digits := by
  have hd := forall_isDigit hdigits
  refine ⟨toInt_argumentNumber_zero hd, ?_, ?_⟩
  · rintro before b after rfl hle
    obtain ⟨hbefore, hb⟩ := List.forall_mem_append.1 hd
    have hnumber : (argumentNumber 0 before).toInt = digitsValue before := by
      rw [toInt_argumentNumber_zero hbefore]
      omega
    refine ⟨exactDigit hnumber hle (hb b List.mem_cons_self), ?_⟩
    rw [argumentNumber_append (v := 0) rfl (Nat.zero_le _) hbefore]
    exact if_pos hle
  · rintro before after rfl hlt
    obtain ⟨hbefore, -⟩ := List.forall_mem_append.1 hd
    rw [argumentNumber_append (v := 0) rfl (Nat.zero_le _) hbefore]
    exact if_neg (Nat.not_le.2 hlt)

end

end Bytes

theorem Call.index?_of_allDigits {c : Call} (hargs : c.args = name :: rest)
    (hname : name.allDigits = true) :
    c.index? = some (min (Bytes.digitsValue name) (argumentLimit + 1)) := by
  have hclamp : (Bytes.argumentNumber 0 name).toNatClampNeg =
      min (Bytes.digitsValue name) (argumentLimit + 1) := by
    rw [Int64.toNatClampNeg, Bytes.toInt_argumentNumber_zero (Bytes.forall_isDigit hname)]
    omega
  rw [index?, hargs]
  simp only [hname, if_true, hclamp]

end TildeText
