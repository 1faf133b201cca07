import TildeText.Builtin.Variable

namespace TildeText

namespace Bytes

def occursAt (s d : Bytes) (i : Nat) : Bool := !d.isEmpty && d.isPrefixOf (s.drop i)

variable {s d p : Bytes} {i j : Nat}

theorem isPrefixOf_nil (hp : p ≠ []) : p.isPrefixOf [] = false := by
  cases p with
  | nil => exact absurd rfl hp
  | cons b p => rfl

theorem indexFrom_eq_some (h : indexFrom p i s = some j) :
    ∃ k, j = i + k ∧ p.isPrefixOf (s.drop k) = true ∧
      ∀ l, l < k → p.isPrefixOf (s.drop l) = false := by
  induction s generalizing i with
  | nil => cases h
  | cons b s ih =>
    rw [indexFrom] at h
    split at h
    · rename_i hb
      cases h
      exact ⟨0, rfl, hb, fun l hl => absurd hl (Nat.not_lt_zero l)⟩
    · rename_i hb
      obtain ⟨k, rfl, hk, hbefore⟩ := ih h
      refine ⟨k + 1, by omega, hk, fun l hl => ?_⟩
      cases l with
      | zero => exact eq_false_of_ne_true hb
      | succ l => exact hbefore l (by omega)

theorem indexFrom_eq_none (hp : p ≠ []) (h : indexFrom p i s = none) (l : Nat) :
    p.isPrefixOf (s.drop l) = false := by
  induction s generalizing i l with
  | nil => rw [List.drop_nil, isPrefixOf_nil hp]
  | cons b s ih =>
    rw [indexFrom] at h
    split at h
    · cases h
    · rename_i hb
      cases l with
      | zero => exact eq_false_of_ne_true hb
      | succ l => exact ih h l

theorem lastIndexFrom_cases (hp : p ≠ []) (i : Nat) (best : Option Nat) (s : Bytes) :
    lastIndexFrom p i best s = best ∧ (∀ l, p.isPrefixOf (s.drop l) = false) ∨
    ∃ k, lastIndexFrom p i best s = some (i + k) ∧ p.isPrefixOf (s.drop k) = true ∧
      ∀ l, k < l → p.isPrefixOf (s.drop l) = false := by
  induction s generalizing i best with
  | nil => exact .inl ⟨rfl, fun l => by rw [List.drop_nil, isPrefixOf_nil hp]⟩
  | cons b s ih =>
    rw [lastIndexFrom]
    rcases ih (i + 1) (if p.isPrefixOf (b :: s) then some i else best) with
      ⟨heq, hnone⟩ | ⟨k, heq, hk, hafter⟩
    · rw [heq]
      split
      · rename_i hb
        refine .inr ⟨0, rfl, hb, fun l hl => ?_⟩
        cases l with
        | zero => exact absurd hl (Nat.lt_irrefl 0)
        | succ l => exact hnone l
      · rename_i hb
        refine .inl ⟨rfl, fun l => ?_⟩
        cases l with
        | zero => exact eq_false_of_ne_true hb
        | succ l => exact hnone l
    · refine .inr ⟨k + 1, by rw [heq, Nat.add_right_comm, Nat.add_assoc], hk, fun l hl => ?_⟩
      cases l with
      | zero => omega
      | succ l => exact hafter l (by omega)

theorem occursAt_nil (s : Bytes) (i : Nat) : s.occursAt [] i = false := rfl

theorem occursAt_of_ne_nil (hd : d ≠ []) (s : Bytes) (i : Nat) :
    s.occursAt d i = d.isPrefixOf (s.drop i) := by
  rw [occursAt, List.isEmpty_eq_false_iff.2 hd]
  rfl

theorem occursAt_of_find? {ds : List Bytes} (h : ds.find? (s.occursAt · i) = some d) :
    s.occursAt d i = true :=
  List.find?_some (p := fun x => s.occursAt x i) h

theorem eq_of_occursAt (h : s.occursAt d i = true) :
    s = s.take i ++ d ++ s.drop (i + d.length) ∧ (s.take i).length = i ∧ d ≠ [] := by
  simp only [occursAt, Bool.and_eq_true, Bool.not_eq_true', List.isEmpty_eq_false_iff] at h
  obtain ⟨hd, hprefix⟩ := h
  obtain ⟨r, hr⟩ := List.isPrefixOf_iff_prefix.1 hprefix
  have hlt : i < s.length := by
    have hlen := congrArg List.length hr
    have hpos := List.length_pos_iff.2 hd
    rw [List.length_append, List.length_drop] at hlen
    omega
  have hdrop : s.drop (i + d.length) = r := by
    rw [← List.drop_drop, ← hr, List.drop_left]
  refine ⟨?_, by rw [List.length_take]; omega, hd⟩
  rw [hdrop, List.append_assoc, hr, List.take_append_drop]

theorem stop_le_of_occursAt (h : s.occursAt d i = true) : i + d.length ≤ s.length := by
  obtain ⟨heq, hlen, -⟩ := eq_of_occursAt h
  have hlength := congrArg List.length heq
  simp only [List.length_append, hlen] at hlength
  omega

end Bytes

structure Finds (find : Bytes → Bytes → Option Nat) (better : Nat → Nat → Bool) : Prop where
  found : find s d = some i →
    s.occursAt d i = true ∧ ∀ j, better j i = true → s.occursAt d j = false
  missing : find s d = none → ∀ j, s.occursAt d j = false
  trans : better i j = true → better j k = true → better i k = true
  total (i j : Nat) : better i j = true ∨ i = j ∨ better j i = true

theorem Finds.stop_le {find : Bytes → Bytes → Option Nat} {better : Nat → Nat → Bool}
    (hf : Finds find better) (h : find s d = some i) : i + d.length ≤ s.length :=
  Bytes.stop_le_of_occursAt (hf.found h).1

theorem Bytes.finds_index? : Finds Bytes.index? (· < ·) where
  found {s d i} h := by
    rw [Bytes.index?] at h
    split at h
    · cases h
    · rename_i hd
      have hd : d ≠ [] := fun hnil => hd (by rw [hnil]; rfl)
      obtain ⟨k, rfl, hk, hbefore⟩ := Bytes.indexFrom_eq_some h
      simp only [Bytes.occursAt_of_ne_nil hd, Nat.zero_add, decide_eq_true_eq]
      exact ⟨hk, hbefore⟩
  missing {s d} h j := by
    rw [Bytes.index?] at h
    by_cases hd : d = []
    · rw [hd, Bytes.occursAt_nil]
    · rw [List.isEmpty_eq_false_iff.2 hd, if_neg Bool.false_ne_true] at h
      rw [Bytes.occursAt_of_ne_nil hd, Bytes.indexFrom_eq_none hd h]
  trans {i j k} hij hjk := by
    simp only [decide_eq_true_eq] at hij hjk ⊢
    omega
  total i j := by
    simp only [decide_eq_true_eq]
    omega

theorem Bytes.finds_lastIndex? : Finds Bytes.lastIndex? (· > ·) where
  found {s d i} h := by
    rw [Bytes.lastIndex?] at h
    split at h
    · cases h
    · rename_i hd
      have hd : d ≠ [] := fun hnil => hd (by rw [hnil]; rfl)
      rcases Bytes.lastIndexFrom_cases hd 0 none s with ⟨heq, -⟩ | ⟨k, heq, hk, hafter⟩
      · rw [heq] at h
        cases h
      · rw [heq, Nat.zero_add] at h
        cases h
        simp only [Bytes.occursAt_of_ne_nil hd, decide_eq_true_eq]
        exact ⟨hk, hafter⟩
  missing {s d} h j := by
    rw [Bytes.lastIndex?] at h
    by_cases hd : d = []
    · rw [hd, Bytes.occursAt_nil]
    · rw [List.isEmpty_eq_false_iff.2 hd, if_neg Bool.false_ne_true] at h
      rcases Bytes.lastIndexFrom_cases hd 0 none s with ⟨-, hnone⟩ | ⟨k, heq, -, -⟩
      · rw [Bytes.occursAt_of_ne_nil hd, hnone]
      · rw [heq] at h
        cases h
  trans {i j k} hij hjk := by
    simp only [decide_eq_true_eq] at hij hjk ⊢
    omega
  total i j := by
    simp only [decide_eq_true_eq]
    omega

namespace Builtin

open Program

def Match.pick (find : Bytes → Bytes → Option Nat) (better : Nat → Nat → Bool) (s : Bytes)
    (best : Option Match) (d : Bytes) : Option Match :=
  match find s d, best with
  | some i, none => some ⟨i, d⟩
  | some i, some b => if better i b.position then some ⟨i, d⟩ else some b
  | none, b => b

theorem Match.pick_eq_some (hd : find s d = some i) (hb : pick find better s best d = some b) :
    b = ⟨i, d⟩ ∨ best = some b := by
  cases best with
  | none =>
    simp only [pick, hd] at hb
    exact .inl (Option.some.inj hb).symm
  | some b₀ =>
    simp only [pick, hd] at hb
    split at hb
    · exact .inl (Option.some.inj hb).symm
    · exact .inr hb

theorem run_behind (ctx : Context) (m : Machine) (h : Handle) (b : Match) :
    (behind h b).run ctx m =
      if short : (m.table.value h).length < b.stop then .failed (.crash b.stop _ short) m
      else .done ((m.table.value h).drop b.stop) m := by
  change Program.run ctx (if short : (m.table.value h).length < b.stop then _ else _) m = _
  split <;> rfl

theorem locate_bind (find : Bytes → Bytes → Option Nat) (better : Nat → Nat → Bool)
    (f : Handle × Option Match → Program α) :
    locate find better >>= f =
      variableArg >>= fun h => argsFrom 2 >>= fun args =>
        bestMatch find better h none args >>= fun best => f (h, best) := by
  refine (Program.bind_assoc variableArg _ f).trans (congrArg (Program.bind variableArg) ?_)
  funext h
  refine (Program.bind_assoc (argsFrom 2) _ f).trans (congrArg (Program.bind (argsFrom 2)) ?_)
  funext args
  exact Program.bind_assoc (bestMatch find better h none args) _ f

def Match.Best (better : Nat → Nat → Bool) (s : Bytes) (ds : List Bytes) : Option Match → Prop
  | none => ∀ d ∈ ds, ∀ i, s.occursAt d i = false
  | some b =>
    (∀ d ∈ ds, ∀ i, better i b.position = true → s.occursAt d i = false) ∧
      ds.find? (s.occursAt · b.position) = some b.delimiter

theorem Match.Best.stop_le (h : Best better s ds (some b)) : b.stop ≤ s.length :=
  Bytes.stop_le_of_occursAt (Bytes.occursAt_of_find? h.2)

section

variable {find : Bytes → Bytes → Option Nat} {better : Nat → Nat → Bool} {s : Bytes}
  {ds : List Bytes} {best : Option Match}

theorem Match.best_pick (hf : Finds find better) (h : Best better s ds best) (d : Bytes) :
    Best better s (ds ++ [d]) (pick find better s best d) := by
  cases hd : find s d with
  | none =>
    have hmissing := hf.missing hd
    have hpick : pick find better s best d = best := by simp [pick, hd]
    rw [hpick]
    cases best with
    | none => exact List.forall_mem_append.2 ⟨h, List.forall_mem_singleton.2 hmissing⟩
    | some b =>
      refine ⟨List.forall_mem_append.2 ⟨h.1, List.forall_mem_singleton.2 fun i _ => hmissing i⟩, ?_⟩
      rw [List.find?_append, h.2, Option.some_or]
  | some i =>
    obtain ⟨hoccurs, hbetter⟩ := hf.found hd
    -- A match that replaces the one before is at a position where nothing listed before it is met.
    have hnew (hbefore : ∀ x ∈ ds, ∀ j, j = i ∨ better j i = true → s.occursAt x j = false) :
        Best better s (ds ++ [d]) (some ⟨i, d⟩) := by
      have hnone : ds.find? (s.occursAt · i) = none :=
        List.find?_eq_none.2 fun x hx => by simp [hbefore x hx i (.inl rfl)]
      refine ⟨List.forall_mem_append.2 ⟨fun x hx j hj => hbefore x hx j (.inr hj),
        List.forall_mem_singleton.2 hbetter⟩, ?_⟩
      rw [List.find?_append, hnone, Option.none_or, List.find?_singleton, if_pos hoccurs]
    cases best with
    | none =>
      have hpick : pick find better s none d = some ⟨i, d⟩ := by simp [pick, hd]
      rw [hpick]
      exact hnew fun x hx j _ => h x hx j
    | some b =>
      have hpick : pick find better s (some b) d =
          if better i b.position then some ⟨i, d⟩ else some b := by simp [pick, hd]
      rw [hpick]
      split
      · rename_i hi
        refine hnew fun x hx j hj => h.1 x hx j ?_
        rcases hj with rfl | hj
        · exact hi
        · exact hf.trans hj hi
      · rename_i hi
        have hnot (j : Nat) (hj : better j b.position = true) : s.occursAt d j = false := by
          rcases hf.total i j with hij | rfl | hji
          · exact absurd (hf.trans hij hj) hi
          · exact absurd hj hi
          · exact hbetter j hji
        refine ⟨List.forall_mem_append.2 ⟨h.1, List.forall_mem_singleton.2 hnot⟩, ?_⟩
        rw [List.find?_append, h.2, Option.some_or]

theorem Match.best_foldl (hf : Finds find better) (h : Best better s ds best) (ds' : List Bytes) :
    Best better s (ds ++ ds') (ds'.foldl (pick find better s) best) := by
  induction ds' generalizing ds best with
  | nil => rwa [List.append_nil]
  | cons d ds' ih =>
    have hstep := ih (best_pick hf h d)
    rwa [List.append_assoc] at hstep

theorem Match.best_of_foldl (hf : Finds find better) (s : Bytes) (ds : List Bytes) :
    Best better s ds (ds.foldl (pick find better s) none) :=
  have hnil : Best better s [] none := fun _ hd => absurd hd List.not_mem_nil
  best_foldl hf hnil ds

end

end Builtin

inductive Side
  | front
  | back

namespace Side

def name : Side → Bytes
  | front => utf8 "first"
  | back => utf8 "last"

def builtin : Side → Builtin
  | front => .first
  | back => .last

/-- A text falls into what is taken from a side, the delimiter there, if any, and what is left. No
delimiter is met before that from the side, and of those met there it is the one listed first. -/
def Splits : Side → Bytes → List Bytes → Bytes → Option Bytes → Bytes → Prop
  | front, s, ds, out, d, rest =>
    s = out ++ d.getD [] ++ rest ∧ (d = none → rest = []) ∧
      (∀ x ∈ ds, ∀ i, i < out.length → s.occursAt x i = false) ∧
      ds.find? (s.occursAt · out.length) = d
  | back, s, ds, out, d, rest =>
    s = rest ++ d.getD [] ++ out ∧ (d = none → rest = []) ∧
      (∀ x ∈ ds, ∀ i, rest.length < i → s.occursAt x i = false) ∧
      ds.find? (s.occursAt · rest.length) = d

/-- Pieces that were taken from a side one after the other, with their delimiters, put together. -/
def rejoin : Side → List (Bytes × Option Bytes) → Bytes
  | front, ps => (ps.map fun p => p.1 ++ p.2.getD []).flatten
  | back, ps => (ps.reverse.map fun p => p.2.getD [] ++ p.1).flatten

def restore : Side → Bytes → Bytes → Bytes
  | front, taken, rest => taken ++ rest
  | back, taken, rest => rest ++ taken

open Builtin

variable {side : Side} {s out rest : Bytes} {ds : List Bytes} {d : Option Bytes}
  {best : Option Match}

theorem splits_front (h : Match.Best (· < ·) s ds best) :
    front.Splits s ds (best.elim s fun b => s.take b.position) (best.map Match.delimiter)
      (best.elim [] fun b => s.drop b.stop) := by
  cases best with
  | none =>
    refine ⟨by simp, fun _ => rfl, fun x hx i _ => h x hx i, ?_⟩
    exact List.find?_eq_none.2 fun x hx => by simp [h x hx]
  | some b =>
    obtain ⟨hbefore, hfind⟩ := h
    obtain ⟨heq, hlen, -⟩ := Bytes.eq_of_occursAt (Bytes.occursAt_of_find? hfind)
    refine ⟨heq, fun hnone => absurd hnone (Option.some_ne_none _), fun x hx i hi => ?_, ?_⟩
    · exact hbefore x hx i (by simpa [hlen] using hi)
    · simpa [hlen] using hfind

theorem splits_back (h : Match.Best (· > ·) s ds best) :
    back.Splits s ds (best.elim s fun b => s.drop b.stop)
      (best.map Match.delimiter) (best.elim [] fun b => s.take b.position) := by
  cases best with
  | none =>
    refine ⟨by simp, fun _ => rfl, fun x hx i _ => h x hx i, ?_⟩
    exact List.find?_eq_none.2 fun x hx => by simp [h x hx]
  | some b =>
    obtain ⟨hafter, hfind⟩ := h
    obtain ⟨heq, hlen, -⟩ := Bytes.eq_of_occursAt (Bytes.occursAt_of_find? hfind)
    refine ⟨heq, fun hnone => absurd hnone (Option.some_ne_none _), fun x hx i hi => ?_, ?_⟩
    · exact hafter x hx i (by simpa [hlen] using hi)
    · simpa [hlen] using hfind

theorem Splits.restore_eq (h : side.Splits s ds out d rest) :
    s = side.restore (side.rejoin [(out, d)]) rest := by
  cases side with
  | front => simpa [restore, rejoin] using h.1
  | back => simpa [restore, rejoin] using h.1

theorem Splits.length_lt (h : side.Splits s ds out d rest) (hs : s ≠ []) :
    rest.length < s.length := by
  have hpos := List.length_pos_iff.2 hs
  have hrest : d = none → rest = [] := by
    cases side with
    | front => exact h.2.1
    | back => exact h.2.1
  have hdelimiter (x : Bytes) (hd : d = some x) : x ≠ [] := by
    cases side with
    | front => exact (Bytes.eq_of_occursAt (Bytes.occursAt_of_find? (h.2.2.2.trans hd))).2.2
    | back => exact (Bytes.eq_of_occursAt (Bytes.occursAt_of_find? (h.2.2.2.trans hd))).2.2
  cases d with
  | none => rwa [hrest rfl, List.length_nil]
  | some x =>
    have hx := List.length_pos_iff.2 (hdelimiter x rfl)
    have hlen := congrArg List.length h.restore_eq
    cases side <;> simp [restore, rejoin] at hlen <;> omega

theorem restore_rejoin_cons (p : Bytes × Option Bytes) (ps : List (Bytes × Option Bytes))
    (rest : Bytes) : side.restore (side.rejoin (p :: ps)) rest =
      side.restore (side.rejoin [p]) (side.restore (side.rejoin ps) rest) := by
  cases side <;> simp [restore, rejoin]

end Side

end TildeText
