import Mathlib.Algebra.BigOperators.Group.List.Basic
import TildeText.Proofs.Arithmetic

namespace TildeText

/-- Texts that are evaluated one after the other, with the numbers that their values are. -/
inductive Machine.Reads (registry : Registry) : Machine → List Bytes → List Int64 → Machine → Prop
  | nil : Reads registry m [] [] m
  | cons : m.Evaluates registry t (.done v m₁) → Bytes.number? v = some k →
      Reads registry m₁ ts ks m' → Reads registry m (t :: ts) (k :: ks) m'

namespace Arithmetic

def wrapped (n : Int) : Int := n.bmod 18446744073709551616

def Accepts : Arithmetic → List Int64 → Prop
  | div, ks => ∀ k ∈ ks.tail, k ≠ 0
  | mod, ks => ∀ k ∈ ks.tail, k ≠ 0
  | _, _ => True

def result : Arithmetic → List Int → Option Int
  | add, ks => some (wrapped ks.sum)
  | mult, ks => some (wrapped ks.prod)
  | _, [] => none
  | sub, k :: ks => some (wrapped (k - ks.sum))
  | div, k :: ks => some (ks.foldl Int.tdiv k)
  | mod, k :: ks => some (ks.foldl Int.tmod k)

def written (a : Arithmetic) (ks : List Int64) : Bytes :=
  (a.result (ks.map Int64.toInt)).elim [] Bytes.decimal

/-- How an invocation goes, from the evaluation of its argument texts. All of them are numbers that
the operation accepts; or the value of one of them is no number, or not one that it accepts after
those before it; or the evaluation of one of them fails. -/
inductive Course (registry : Registry) (a : Arithmetic) (m : Machine) :
    List Bytes → Outcome Unit → Prop
  | whole : m.Reads registry ts ks m' → a.Accepts ks →
      Course registry a m ts (.done () (m'.write (a.written ks)))
  | refused : m.Reads registry ts ks m₁ → a.Accepts ks → m₁.Evaluates registry t (.done v m') →
      (∀ k, Bytes.number? v = some k → ¬ a.Accepts (ks ++ [k])) →
      Course registry a m (ts ++ t :: rest) (.done () m')
  | failed : m.Reads registry ts ks m₁ → a.Accepts ks → m₁.Evaluates registry t (.failed e m') →
      Course registry a m (ts ++ t :: rest) (.failed e m')

/-- A division that gives on words what it gives on integers. -/
structure ExactDivision (n k : Int64) : Prop where
  divisor : k ≠ 0
  quotient : (n / k).toInt = n.toInt.tdiv k.toInt
  remainder : (n % k).toInt = n.toInt.tmod k.toInt

structure Division (op : Int64 → Int64 → Option Int64) (f : Int → Int → Int) : Prop where
  zero (n : Int64) : op n 0 = none
  step {n k : Int64} : n ≠ Int64.minValue → k ≠ 0 →
    ∃ n', op n k = some n' ∧ n' ≠ Int64.minValue ∧ n'.toInt = f n.toInt k.toInt

section Words

variable {n k : Int64} {ks : List Int64}

theorem foldlM_ofInt {f : Int64 → Int64 → Int64} {g : Int → Int → Int} {e : Int}
    (hnil : ∀ n, f n (Int64.ofInt e) = n)
    (hcons : ∀ n k x, f (f n k) (Int64.ofInt x) = f n (Int64.ofInt (g k.toInt x))) (n : Int64)
    (ks : List Int64) :
    ks.foldlM (fun n k => some (f n k)) n =
      some (f n (Int64.ofInt ((ks.map Int64.toInt).foldr g e))) := by
  induction ks generalizing n with
  | nil =>
    rw [List.map_nil, List.foldr_nil, hnil]
    rfl
  | cons k ks ih =>
    rw [List.map_cons, List.foldr_cons, ← hcons]
    exact ih (f n k)

theorem foldlM_add (n : Int64) (ks : List Int64) :
    ks.foldlM add.op n = some (n + Int64.ofInt (ks.map Int64.toInt).sum) := by
  refine foldlM_ofInt (fun n => by simp) (fun n k x => ?_) n ks
  rw [Int64.ofInt_add, Int64.ofInt_toInt, Int64.add_assoc]

theorem foldlM_mult (n : Int64) (ks : List Int64) :
    ks.foldlM mult.op n = some (n * Int64.ofInt (ks.map Int64.toInt).prod) := by
  refine foldlM_ofInt (fun n => by simp) (fun n k x => ?_) n ks
  rw [Int64.ofInt_mul, Int64.ofInt_toInt, Int64.mul_assoc]

theorem foldlM_sub (n : Int64) (ks : List Int64) :
    ks.foldlM sub.op n = some (n - Int64.ofInt (ks.map Int64.toInt).sum) := by
  refine foldlM_ofInt (fun n => by simp) (fun n k x => ?_) n ks
  rw [Int64.ofInt_add, Int64.ofInt_toInt]
  grind

theorem toInt_ofInt_eq (n : Int) : (Int64.ofInt n).toInt = wrapped n := Int64.toInt_ofInt

theorem exactDivision (hn : n ≠ Int64.minValue) (hk : k ≠ 0) : ExactDivision n k :=
  ⟨hk, Int64.toInt_div_of_ne_left n k hn, Int64.toInt_mod n k⟩

theorem ne_minValue_iff : n ≠ Int64.minValue ↔ n.toInt.natAbs ≤ 9223372036854775807 := by
  have hmin : Int64.minValue.toInt = -9223372036854775808 := rfl
  have hle := Bytes.toInt_le_limit n
  have hge := n.le_toInt
  rw [Ne, ← Int64.toInt_inj, hmin]
  omega

theorem division_divide : Division Builtin.divide? Int.tdiv where
  zero n := rfl
  step := by
    intro n k hn hk
    have hexact := (exactDivision hn hk).quotient
    refine ⟨n / k, if_neg hk, ?_, hexact⟩
    rw [ne_minValue_iff] at hn ⊢
    rw [hexact]
    exact Nat.le_trans (Int.natAbs_tdiv_le_natAbs _ _) hn

theorem division_remainder : Division Builtin.remainder? Int.tmod where
  zero n := rfl
  step := by
    intro n k hn hk
    have hexact := (exactDivision hn hk).remainder
    refine ⟨n % k, if_neg hk, ?_, hexact⟩
    rw [ne_minValue_iff] at hn ⊢
    rw [hexact, Int.natAbs_tmod]
    exact Nat.le_trans (Nat.mod_le _ _) hn

namespace Division

variable {op : Int64 → Int64 → Option Int64} {f : Int → Int → Int}

theorem foldlM_eq (h : Division op f) (hn : n ≠ Int64.minValue) (hks : ∀ k ∈ ks, k ≠ 0) :
    ∃ n', ks.foldlM op n = some n' ∧ n' ≠ Int64.minValue ∧
      n'.toInt = (ks.map Int64.toInt).foldl f n.toInt := by
  induction ks generalizing n with
  | nil => exact ⟨n, rfl, hn, rfl⟩
  | cons k ks ih =>
    -- what the fold has come to is not the least word: from that alone could a step lead out
    obtain ⟨hk, hks⟩ := List.forall_mem_cons.1 hks
    obtain ⟨n₁, hop, hn₁, hval⟩ := h.step hn hk
    obtain ⟨n', hfold, hn', hval'⟩ := ih hn₁ hks
    refine ⟨n', ?_, hn', ?_⟩
    · rw [List.foldlM_cons, hop]
      exact hfold
    · rw [hval', hval]
      rfl

theorem foldlM_eq_none (h : Division op f) (n : Int64) (hks : 0 ∈ ks) : ks.foldlM op n = none := by
  induction ks generalizing n with
  | nil => cases hks
  | cons k ks ih =>
    rw [List.foldlM_cons]
    rcases List.mem_cons.1 hks with rfl | hks
    · rw [h.zero]
      rfl
    · cases op n k with
      | none => rfl
      | some n₁ => exact ih n₁ hks

theorem ne_minValue (h : Division op f) (hn : n ≠ Int64.minValue)
    (hfold : ks.foldlM op n = some n') : n' ≠ Int64.minValue := by
  by_cases hks : 0 ∈ ks
  · rw [h.foldlM_eq_none n hks] at hfold
    cases hfold
  · obtain ⟨n₁, hfold₁, hn₁, -⟩ := h.foldlM_eq hn fun k hk hzero => hks (hzero ▸ hk)
    rw [hfold₁] at hfold
    cases hfold
    exact hn₁

end Division

end Words

section Folding

variable {a : Arithmetic} {acc r : Option Int64} {n k : Int64} {ks : List Int64}

def takeIn (a : Arithmetic) : Option Int64 → List Int64 → Option (Option Int64)
  | acc, [] => some acc
  | acc, k :: ks => (a.next acc k).bind fun n => a.takeIn (some n) ks

theorem takeIn_concat (a : Arithmetic) (acc : Option Int64) (ks : List Int64) (k : Int64) :
    a.takeIn acc (ks ++ [k]) = (a.takeIn acc ks).bind fun r => (a.next r k).map some := by
  induction ks generalizing acc with
  | nil =>
    simp only [List.nil_append, takeIn, Option.bind_some]
    cases a.next acc k <;> rfl
  | cons k' ks ih =>
    simp only [List.cons_append, takeIn]
    cases a.next acc k' with
    | none => rfl
    | some n => exact ih (some n)

theorem takeIn_some (a : Arithmetic) (n : Int64) (ks : List Int64) :
    a.takeIn (some n) ks = (ks.foldlM a.op n).map some := by
  induction ks generalizing n with
  | nil => rfl
  | cons k ks ih =>
    have hnext : a.next (some n) k = a.op n k := rfl
    rw [takeIn, hnext, List.foldlM_cons]
    cases a.op n k with
    | none => rfl
    | some n' => exact ih n'

theorem takeIn_first (hstart : a.start = none) (k : Int64) (ks : List Int64) :
    a.takeIn a.start (k :: ks) = (ks.foldlM a.op k).map some := by
  have hnext : a.next none k = some k := rfl
  rw [hstart, takeIn, hnext, Option.bind_some, takeIn_some]

theorem takeIn_division {f : Int → Int → Int} (h : Division a.op f) (hstart : a.start = none)
    (hk : k ≠ Int64.minValue) (hks : ∀ k ∈ ks, k ≠ 0) :
    ∃ r, a.takeIn a.start (k :: ks) = some r ∧
      r.map Int64.toInt = some ((ks.map Int64.toInt).foldl f k.toInt) := by
  obtain ⟨n, hfold, -, hval⟩ := h.foldlM_eq hk hks
  exact ⟨some n, by rw [takeIn_first hstart, hfold, Option.map_some],
    by rw [Option.map_some, hval]⟩

theorem takeIn_of_accepts (hks : ∀ k ∈ ks, k ≠ Int64.minValue) (h : a.Accepts ks) :
    ∃ r, a.takeIn a.start ks = some r ∧
      r.map Int64.toInt = a.result (ks.map Int64.toInt) := by
  cases a with
  | add =>
    refine ⟨_, by rw [start, takeIn_some, foldlM_add, Option.map_some], ?_⟩
    rw [Int64.zero_add, Option.map_some, toInt_ofInt_eq, result]
  | mult =>
    refine ⟨_, by rw [start, takeIn_some, foldlM_mult, Option.map_some], ?_⟩
    rw [Int64.one_mul, Option.map_some, toInt_ofInt_eq, result]
  | sub =>
    cases ks with
    | nil => exact ⟨none, rfl, rfl⟩
    | cons k ks =>
      have hword : k - Int64.ofInt (ks.map Int64.toInt).sum =
          Int64.ofInt (k.toInt - (ks.map Int64.toInt).sum) := by
        rw [Int64.ofInt_sub, Int64.ofInt_toInt]
      refine ⟨_, by rw [takeIn_first rfl, foldlM_sub, Option.map_some], ?_⟩
      rw [hword, Option.map_some, toInt_ofInt_eq, List.map_cons, result]
  | div =>
    cases ks with
    | nil => exact ⟨none, rfl, rfl⟩
    | cons k ks =>
      exact takeIn_division (a := div) division_divide rfl (List.forall_mem_cons.1 hks).1 h
  | mod =>
    cases ks with
    | nil => exact ⟨none, rfl, rfl⟩
    | cons k ks =>
      exact takeIn_division (a := mod) division_remainder rfl (List.forall_mem_cons.1 hks).1 h

theorem takeIn_division_none {f : Int → Int → Int} (h : Division a.op f) (hstart : a.start = none)
    (hks : ¬ ∀ k ∈ ks.tail, k ≠ 0) : a.takeIn a.start ks = none := by
  cases ks with
  | nil => exact absurd (by simp) hks
  | cons k ks =>
    have hzero : 0 ∈ ks := by simpa using hks
    rw [takeIn_first hstart, h.foldlM_eq_none k hzero, Option.map_none]

theorem takeIn_of_not_accepts (h : ¬ a.Accepts ks) : a.takeIn a.start ks = none := by
  cases a with
  | add => exact absurd trivial h
  | mult => exact absurd trivial h
  | sub => exact absurd trivial h
  | div => exact takeIn_division_none division_divide rfl h
  | mod => exact takeIn_division_none division_remainder rfl h

end Folding

theorem numeral_eq_written {a : Arithmetic} {r : Option Int64} {ks : List Int64}
    (h : r.map Int64.toInt = a.result (ks.map Int64.toInt)) :
    Bytes.numeral r = a.written ks := by
  rw [written, ← h]
  cases r <;> rfl

end Arithmetic

theorem Bytes.number?_ne_minValue {v : Bytes} {k : Int64} (h : Bytes.number? v = some k) :
    k ≠ Int64.minValue := by
  obtain ⟨negative, digits, -, hle, hval⟩ := Bytes.number?_eq_some_iff.1 h
  rw [Arithmetic.ne_minValue_iff, hval, Bytes.signed]
  split <;> omega

theorem Machine.Reads.ne_minValue {registry : Registry} {m m' : Machine}
    (h : m.Reads registry ts ks m') : ∀ k ∈ ks, k ≠ Int64.minValue := by
  induction h with
  | nil => simp
  | cons _ hk _ ih => exact List.forall_mem_cons.2 ⟨Bytes.number?_ne_minValue hk, ih⟩

namespace Arithmetic

inductive Taking (registry : Registry) (a : Arithmetic) (acc : Option Int64) (m : Machine) :
    List Bytes → Outcome (Option Int64) → Prop
  | whole : m.Reads registry ts ks m' → a.takeIn acc ks = some r →
      Taking registry a acc m ts (.done r m')
  | refused : m.Reads registry ts ks m₁ → a.takeIn acc ks = some r →
      m₁.Evaluates registry t (.done v m') → (Bytes.number? v).bind (a.next r) = none →
      Taking registry a acc m (ts ++ t :: rest) (.done none m')
  | failed : m.Reads registry ts ks m₁ → a.takeIn acc ks = some r →
      m₁.Evaluates registry t (.failed e m') →
      Taking registry a acc m (ts ++ t :: rest) (.failed e m')

section Running

variable {registry : Registry} {a : Arithmetic} {acc r : Option Int64} {m m' m₁ : Machine}
  {t v : Bytes} {ts : List Bytes} {ks : List Int64} {x : Outcome (Option Int64)}

theorem total_append_of_reads (h : m.Reads registry ts ks m') (hr : a.takeIn acc ks = some r) :
    ∃ n, ∀ k, n ≤ k → ∀ rest, a.total (eval registry k) acc (ts ++ rest) m =
      a.total (eval registry k) r rest m' := by
  induction h generalizing acc with
  | nil =>
    cases hr
    exact ⟨0, fun k _ rest => rfl⟩
  | cons ht hk _ ih =>
    rw [takeIn] at hr
    obtain ⟨n, hn, hr⟩ := Option.bind_eq_some_iff.1 hr
    obtain ⟨n₁, h₁⟩ := ht.eventually
    obtain ⟨n₂, h₂⟩ := ih hr
    refine ⟨max n₁ n₂, fun k hk' rest => ?_⟩
    rw [List.cons_append, total, h₁ k (by omega), Outcome.andThen, hk, Option.bind_some, hn]
    exact h₂ k (by omega) rest

namespace Taking

theorem eventually (h : Taking registry a acc m ts x) :
    ∃ n, ∀ k, n ≤ k → a.total (eval registry k) acc ts m = x := by
  cases h with
  | whole hts hr =>
    obtain ⟨n, h⟩ := total_append_of_reads hts hr
    refine ⟨n, fun k hk => ?_⟩
    have hall := h k hk []
    rwa [List.append_nil] at hall
  | refused hts hr ht hv =>
    obtain ⟨n₁, h₁⟩ := total_append_of_reads hts hr
    obtain ⟨n₂, h₂⟩ := ht.eventually
    refine ⟨max n₁ n₂, fun k hk => ?_⟩
    rw [h₁ k (by omega), total, h₂ k (by omega), Outcome.andThen, hv]
  | failed hts hr ht =>
    obtain ⟨n₁, h₁⟩ := total_append_of_reads hts hr
    obtain ⟨n₂, h₂⟩ := ht.eventually
    refine ⟨max n₁ n₂, fun k hk => ?_⟩
    rw [h₁ k (by omega), total, h₂ k (by omega), Outcome.andThen]

theorem cons (ht : m.Evaluates registry t (.done v m₁)) (hk : Bytes.number? v = some k)
    (hn : a.next acc k = some n) (h : Taking registry a (some n) m₁ ts x) :
    Taking registry a acc m (t :: ts) x := by
  have htake {ks : List Int64} {r : Option Int64} (h : a.takeIn (some n) ks = some r) :
      a.takeIn acc (k :: ks) = some r := by
    rw [takeIn, hn]
    exact h
  cases h with
  | whole hts hr => exact .whole (.cons ht hk hts) (htake hr)
  | refused hts hr ht' hv => exact .refused (.cons ht hk hts) (htake hr) ht' hv
  | failed hts hr ht' => exact .failed (.cons ht hk hts) (htake hr) ht'

end Taking

theorem taking_of_total (h : a.total (eval registry k) acc ts m = x) (hx : x ≠ .exhausted) :
    Taking registry a acc m ts x := by
  induction ts generalizing acc m with
  | nil =>
    subst h
    exact .whole .nil rfl
  | cons t ts ih =>
    have hnil : m.Reads registry [] [] m := .nil
    rw [total] at h
    cases hv : m.valueOf (eval registry k) t with
    | exhausted =>
      rw [hv] at h
      exact absurd h.symm hx
    | failed e m₁ =>
      rw [hv] at h
      subst h
      have hfirst : Taking registry a acc m ([] ++ t :: ts) (.failed e m₁) :=
        .failed hnil rfl ⟨by simp, k, hv⟩
      exact hfirst
    | done v m₁ =>
      have ht : m.Evaluates registry t (.done v m₁) := ⟨by simp, k, hv⟩
      rw [hv, Outcome.andThen] at h
      cases hn : (Bytes.number? v).bind (a.next acc) with
      | none =>
        rw [hn] at h
        subst h
        have hfirst : Taking registry a acc m ([] ++ t :: ts) (.done none m₁) :=
          .refused hnil rfl ht hn
        exact hfirst
      | some n =>
        rw [hn] at h
        obtain ⟨k', hk', hn'⟩ := Option.bind_eq_some_iff.1 hn
        exact (ih h).cons ht hk' hn'

theorem accepts_of_takeIn (h : a.takeIn a.start ks = some r) : a.Accepts ks := by
  by_cases hks : a.Accepts ks
  · exact hks
  · rw [takeIn_of_not_accepts hks] at h
    cases h

theorem next_eq_none_iff (hks : ∀ k ∈ ks, k ≠ Int64.minValue) (hr : a.takeIn a.start ks = some r)
    (hk : k ≠ Int64.minValue) : a.next r k = none ↔ ¬ a.Accepts (ks ++ [k]) := by
  have hconcat := a.takeIn_concat a.start ks k
  rw [hr, Option.bind_some] at hconcat
  constructor
  · intro hn hacc
    have hks' : ∀ k' ∈ ks ++ [k], k' ≠ Int64.minValue :=
      List.forall_mem_append.2 ⟨hks, by simpa using hk⟩
    obtain ⟨r', hr', -⟩ := takeIn_of_accepts hks' hacc
    rw [hconcat, hn] at hr'
    cases hr'
  · intro hacc
    rw [takeIn_of_not_accepts hacc] at hconcat
    exact Option.map_eq_none_iff.1 hconcat.symm

def told (x : Outcome (Option Int64)) : Outcome Unit :=
  x.andThen fun r m => .done () (m.write (Bytes.numeral r))

theorem course_of_taking (h : Taking registry a a.start m ts x) :
    Course registry a m ts (told x) := by
  cases h with
  | whole hts hr =>
    have hacc := accepts_of_takeIn hr
    obtain ⟨r', hr', hval⟩ := takeIn_of_accepts hts.ne_minValue hacc
    rw [hr, Option.some.injEq] at hr'
    subst hr'
    rw [told, Outcome.andThen, numeral_eq_written hval]
    exact .whole hts hacc
  | refused hts hr ht hv =>
    refine .refused hts (accepts_of_takeIn hr) ht fun k hk => ?_
    rw [hk, Option.bind_some] at hv
    exact (next_eq_none_iff hts.ne_minValue hr (Bytes.number?_ne_minValue hk)).1 hv
  | failed hts hr ht => exact .failed hts (accepts_of_takeIn hr) ht

theorem taking_of_course (h : Course registry a m ts o) :
    ∃ x, Taking registry a a.start m ts x ∧ o = told x := by
  cases h with
  | whole hts hacc =>
    obtain ⟨r, hr, hval⟩ := takeIn_of_accepts hts.ne_minValue hacc
    refine ⟨_, .whole hts hr, ?_⟩
    rw [told, Outcome.andThen, numeral_eq_written hval]
  | @refused ts ks m₁ t v m' rest hts hacc ht hv =>
    obtain ⟨r, hr, -⟩ := takeIn_of_accepts hts.ne_minValue hacc
    have hnone : (Bytes.number? v).bind (a.next r) = none := by
      cases hk : Bytes.number? v with
      | none => rfl
      | some k =>
        exact (next_eq_none_iff hts.ne_minValue hr (Bytes.number?_ne_minValue hk)).2 (hv k hk)
    exact ⟨_, .refused hts hr ht hnone, rfl⟩
  | failed hts hacc ht =>
    obtain ⟨r, hr, -⟩ := takeIn_of_accepts hts.ne_minValue hacc
    exact ⟨_, .failed hts hr ht, rfl⟩

theorem Course.ne_exhausted (h : Course registry a m ts o) : o ≠ .exhausted := by
  cases h <;> simp

variable {c : Call} {title : Bytes}

theorem carryOut_told (ha : registry.lookup a.name = some a.builtin) (hargs : c.args = title :: ts)
    (htitle : m.Evaluates registry title (.done a.name m₁)) :
    ∃ n, ∀ k, n ≤ k → ∀ src, Invocation.carryOut registry k (eval registry k) src c m =
      told (a.total (eval registry k) a.start ts m₁) := by
  obtain ⟨n, hn⟩ := Invocation.carryOut_titled hargs htitle a.name_allDigits ha
  refine ⟨n + 1, fun k hk src => ?_⟩
  obtain ⟨j, rfl⟩ : ∃ j, k = j + 1 := ⟨k - 1, by omega⟩
  obtain ⟨f', hf'⟩ := a.run_builtin (Frame.Unread.ofCall hargs src a.name)
    (registry.context (eval registry (j + 1))) m₁
  have hcontext : (registry.context (eval registry (j + 1))).eval = eval registry (j + 1) := rfl
  rw [hn (j + 1) (by omega), Invocation.builtin_succ, hf', hcontext, tell, told]
  cases a.total (eval registry (j + 1)) a.start ts m₁ <;> rfl

theorem reached_iff (ha : registry.lookup a.name = some a.builtin) (hargs : c.args = title :: ts)
    (htitle : m.Evaluates registry title (.done a.name m₁)) (o : Outcome Unit) (src : Source) :
    Outcome.Reached (fun k => Invocation.carryOut registry k (eval registry k) src c m) o ↔
      a.Course registry m₁ ts o := by
  obtain ⟨n, hn⟩ := carryOut_told ha hargs htitle
  constructor
  · rintro ⟨ho, k, hk⟩
    have hk : Invocation.carryOut registry k (eval registry k) src c m = o := hk
    -- with more fuel the outcome is the same, and enough of it goes through the title
    have hmore := (Invocation.carryOut_upTo (Nat.le_max_left k n) src c m).eq (by rwa [hk])
    have htold : told (a.total (eval registry (max k n)) a.start ts m₁) = o := by
      rw [← hn (max k n) (by omega) src, ← hmore, hk]
    subst htold
    refine course_of_taking (taking_of_total rfl fun hx => ho ?_)
    rw [hx]
    rfl
  · intro h
    obtain ⟨x, hx, rfl⟩ := taking_of_course h
    obtain ⟨n', hn'⟩ := hx.eventually
    refine ⟨h.ne_exhausted, max n n', ?_⟩
    simp only [hn (max n n') (by omega) src, hn' (max n n') (by omega)]

theorem written_perm {ks ks' : List Int64} (h : ks.Perm ks') :
    add.written ks = add.written ks' ∧ mult.written ks = mult.written ks' := by
  have hmap := h.map Int64.toInt
  simp only [written, result, hmap.sum_eq, hmap.prod_eq, and_self]

theorem exactDivision_of_foldlM (ha : a = .div ∨ a = .mod) (hv : Bytes.number? v = some k₁)
    (hfold : ks.foldlM a.op k₁ = some n) (hop : a.op n k = some n') : ExactDivision n k := by
  obtain ⟨f, hdivision⟩ : ∃ f, Division a.op f := by
    rcases ha with rfl | rfl
    · exact ⟨_, division_divide⟩
    · exact ⟨_, division_remainder⟩
  refine exactDivision (hdivision.ne_minValue (Bytes.number?_ne_minValue hv) hfold) ?_
  rintro rfl
  rw [hdivision.zero] at hop
  cases hop

end Running

end Arithmetic

/-- The operations of arithmetic are exact folds. An invocation evaluates its arguments in order and
writes what the numbers come to as integers, which for sums, differences and products is brought to
a word; without a number to start from it writes nothing. The first value that is no number, or is a
zero to divide by, ends it: nothing is written, and no later argument is evaluated. The first
evaluation that fails ends it with the same failure. So sums and products do not depend on the order
of the numbers. And in a division that starts from a number that was read, by whatever numbers it
goes on, no step is a division by zero or leaves the range of a word. -/
theorem arithmetic_folds (registry : Registry) (a : Arithmetic)
    (ha : registry.lookup a.name = some a.builtin) (c : Call) (hargs : c.args = title :: ts)
    (m m₁ : Machine) (htitle : m.Evaluates registry title (.done a.name m₁)) :
    (∀ o src, Outcome.Reached
      (fun k => Invocation.carryOut registry k (eval registry k) src c m) o ↔
        a.Course registry m₁ ts o) ∧
    (c.WellFenced → ∀ o label, Outcome.Reached (fun k => eval registry k ⟨label, c.render⟩ m) o ↔
      a.Course registry m₁ ts o) ∧
    (∀ ks ks', ks.Perm ks' → Arithmetic.add.written ks = Arithmetic.add.written ks' ∧
      Arithmetic.mult.written ks = Arithmetic.mult.written ks') ∧
    (a = .div ∨ a = .mod → ∀ v k₁ (ks : List Int64) n k n', Bytes.number? v = some k₁ →
      ks.foldlM a.op k₁ = some n → a.op n k = some n' → Arithmetic.ExactDivision n k) := by
  refine ⟨Arithmetic.reached_iff ha hargs htitle, fun hc o label => ?_,
    fun ks ks' => Arithmetic.written_perm,
    fun hdiv v k₁ ks n k n' => Arithmetic.exactDivision_of_foldlM hdiv⟩
  rw [hc.reached_iff]
  exact Arithmetic.reached_iff (c := c.atStart) ha hargs htitle o _

def Call.quotient : Call := ⟨0, 2, [utf8 "div", utf8 "7", utf8 "-2"]⟩

def Call.zeroDivisor : Call := ⟨0, 2, [utf8 "div", utf8 "7", utf8 "0", utf8 "<~stop~end~>"]⟩

theorem arithmetic_folds_quotient :
    Registry.standard.lookup (utf8 "div") = some Builtin.div ∧
    Machine.bare.Evaluates .standard (utf8 "div") (.done (utf8 "div") .bare) ∧
    Call.quotient.WellFenced ∧ Call.zeroDivisor.WellFenced ∧
    Outcome.Reached (fun k => eval .standard k ⟨[], Call.quotient.render⟩ .bare)
      (.done () (Machine.bare.write (utf8 "-3"))) ∧
    Outcome.Reached (fun k => eval .standard k ⟨[], Call.zeroDivisor.render⟩ .bare)
      (.done () .bare) ∧
    Arithmetic.ExactDivision 7 (-2) := by
  have hplain (t : Bytes) (h : Token.lt ∉ t ∧ Token.tilde ∉ t) :
      Machine.bare.Evaluates .standard t (.done t .bare) :=
    (Bytes.isPlain_of_free h).evaluates .standard .bare
  have hdiv := hplain (utf8 "div") (by decide)
  have hquotient : Call.quotient.WellFenced :=
    ⟨by decide, by decide, _, _, rfl, by decide, by decide, by decide⟩
  have hzero : Call.zeroDivisor.WellFenced :=
    ⟨by decide, by decide, _, _, rfl, by decide, by decide, by decide⟩
  have hreads : Machine.bare.Reads .standard [utf8 "7", utf8 "-2"] [7, -2] .bare :=
    .cons (hplain _ (by decide)) rfl (.cons (hplain _ (by decide)) rfl .nil)
  have hwhole : Arithmetic.div.Course .standard .bare [utf8 "7", utf8 "-2"]
      (.done () (Machine.bare.write (utf8 "-3"))) :=
    .whole hreads (by simp [Arithmetic.Accepts])
  have hrefused : Arithmetic.div.Course .standard .bare
      ([utf8 "7"] ++ utf8 "0" :: [utf8 "<~stop~end~>"]) (.done () .bare) := by
    refine .refused (.cons (hplain _ (by decide)) rfl .nil) (by simp [Arithmetic.Accepts])
      (hplain _ (by decide)) fun k hk hacc => ?_
    have hk : some 0 = some k := hk
    cases hk
    exact hacc 0 (by simp) rfl
  obtain ⟨-, hwritten, -, hexact⟩ :=
    arithmetic_folds .standard .div rfl .quotient rfl .bare .bare hdiv
  obtain ⟨-, hnothing, -, -⟩ :=
    arithmetic_folds .standard .div rfl .zeroDivisor rfl .bare .bare hdiv
  exact ⟨rfl, hdiv, hquotient, hzero, (hwritten hquotient _ []).2 hwhole,
    (hnothing hzero _ []).2 hrefused,
    hexact (.inl rfl) (utf8 "7") 7 [] 7 (-2) (-3) rfl rfl rfl⟩

end TildeText
