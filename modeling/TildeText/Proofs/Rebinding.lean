import TildeText.Builtin.Standard
import TildeText.Proofs.ArgumentNumbers
import TildeText.Proofs.Arguments

namespace TildeText

/-- A frame in which a number is not taken for another one that an argument has. -/
def Frame.Tells (f : Frame) (n : Nat) : Prop := n ≤ argumentLimit + 1 ∨ f.size ≤ argumentLimit + 1

def Machine.put (m : Machine) (n : Nat) (v : Bytes) : Machine := m.mapFrame (·.rebind n (some v))

/-- An invocation that writes a value and does nothing else, whatever evaluation does: there is
nothing to evaluate for it. -/
def Call.Yields (c : Call) (m : Machine) (v : Bytes) : Prop :=
  ∀ registry fuel ev src, Invocation.carryOut registry fuel ev src c m = .done () (m.write v)

theorem Frame.given_of_size_le {f : Frame} (h : f.size ≤ n) : f.given n = .value [] := by
  rw [given, List.getElem?_eq_none h]
  rfl

section Referring

variable {c : Call} {digits : Bytes} {m : Machine}

theorem Invocation.carryOut_refer (hargs : c.args = [digits]) (hdigits : digits.allDigits = true)
    (registry : Registry) (fuel : Nat) (ev : Source → Machine → Outcome Unit) (src : Source)
    (m : Machine) :
    carryOut registry fuel ev src c m =
      refer ev (min digits.digitsValue (argumentLimit + 1)) m := by
  rw [carryOut, Call.index?_of_allDigits hargs hdigits, hargs]
  rfl

theorem Call.yields_of_given (hargs : c.args = [digits]) (hdigits : digits.allDigits = true)
    (h : m.scope.frame.given (min digits.digitsValue (argumentLimit + 1)) = .value v) :
    c.Yields m v := by
  intro registry fuel ev src
  obtain ⟨a, rfl, ha⟩ := Frame.argument_given h ev
  rw [Invocation.carryOut_refer hargs hdigits, Invocation.refer_eq, ha, Outcome.andThen]

theorem Call.yields_nothing (hargs : c.args = [digits]) (hdigits : digits.allDigits = true)
    (hsize : m.scope.frame.size ≤ digits.digitsValue)
    (htells : m.scope.frame.Tells digits.digitsValue) : c.Yields m [] := by
  refine yields_of_given hargs hdigits (Frame.given_of_size_le ?_)
  rcases htells with h | h <;> omega

end Referring

section Rebinding

variable {c d : Call} {name digits t v : Bytes} {rest : List Bytes} {m m₁ : Machine}
  {ev : Source → Machine → Outcome Unit}

theorem Invocation.carryOut_rebind (hargs : c.args = name :: t :: rest)
    (hname : name.allDigits = true) (hvalue : m.valueOf ev t = .done v m₁) (registry : Registry)
    (fuel : Nat) (src : Source) :
    carryOut registry fuel ev src c m =
      if name.digitsValue ≤ argumentLimit then .done () (m₁.put name.digitsValue v)
      else .failed ((m₁.push ((c.frame src).remember 1 v)).fault .badArgument name) m₁ := by
  have hlen : ¬ c.args.length < 2 := by simp [hargs]
  have hslot : (c.frame src).slots[1]? = some { text := some t } := by
    simp [Call.frame, Frame.ofTexts, hargs]
  have hraw : ((c.frame src).remember 1 v).raw 0 = some name := by
    simp [Frame.raw, Frame.remember, Call.frame, Frame.ofTexts, hargs]
  have hargument : (m.push (c.frame src)).argument ev 1 =
      .done (some v) (m₁.push ((c.frame src).remember 1 v)) := by
    rw [Machine.argument_unread hslot, hvalue]
  rw [carryOut, Call.index?_of_allDigits hargs hname]
  simp only [if_neg hlen, rebind, hargument]
  by_cases hle : name.digitsValue ≤ argumentLimit
  · have hmin : min name.digitsValue (argumentLimit + 1) = name.digitsValue := by omega
    rw [hmin, if_pos hle, if_pos hle]
    rfl
  · have hmin : ¬ min name.digitsValue (argumentLimit + 1) ≤ argumentLimit := by omega
    rw [if_neg hmin, if_neg hle]
    have hscope : (m₁.push ((c.frame src).remember 1 v)).scope.frame =
        (c.frame src).remember 1 v := rfl
    rw [hscope, hraw]
    rfl

theorem Call.yields_put (hargs : d.args = [digits]) (hdigits : digits.allDigits = true)
    (hle : digits.digitsValue ≤ argumentLimit) (m : Machine) (v : Bytes) :
    d.Yields (m.put digits.digitsValue v) v := by
  have hmin : min digits.digitsValue (argumentLimit + 1) = digits.digitsValue := by omega
  refine yields_of_given hargs hdigits ?_
  rw [hmin]
  exact (Frame.given_rebind _ _ _ _).trans (if_pos rfl)

theorem Call.yields_nothing_put (hargs : d.args = [digits]) (hdigits : digits.allDigits = true)
    (hn : n ≤ argumentLimit) (hne : digits.digitsValue ≠ n)
    (hsize : m.scope.frame.size ≤ digits.digitsValue)
    (htells : m.scope.frame.Tells digits.digitsValue) (v : Bytes) : d.Yields (m.put n v) [] := by
  refine yields_of_given hargs hdigits ?_
  have hother : (m.put n v).scope.frame.given (min digits.digitsValue (argumentLimit + 1)) =
      m.scope.frame.given (min digits.digitsValue (argumentLimit + 1)) :=
    (Frame.given_rebind _ _ _ _).trans (if_neg (by omega))
  rw [hother]
  refine Frame.given_of_size_le ?_
  rcases htells with h | h <;> omega

theorem Machine.getElem?_put (m : Machine) (n : Nat) (v : Bytes) (hne : i ≠ n) :
    (m.put n v).scope.frame.slots[i]? =
      if i < m.scope.frame.size then m.scope.frame.slots[i]?
      else if i < n then some {} else none :=
  (Frame.getElem?_rebind _ _ _ _).trans (if_neg hne)

end Rebinding

/-- Arguments are put and found by their numbers. Digits are read to their number without leaving
the range of a word, however many there are. An invocation that gives an argument a value does so
just if the number is not beyond the limit; else it fails, with the digits as evidence, and leaves
all as the evaluation of the value has left it. After that the value is what any invocation writes
that has the same number, and nothing is evaluated for it. Under any other number there is the
argument that was there, or else an empty one or none. A number that no argument has refers to
nothing, unless it is beyond the limit and so taken for that of an argument beyond the limit. -/
theorem arguments_get_put (registry : Registry) (c : Call) (hargs : c.args = name :: t :: rest)
    (hname : name.allDigits = true) (ev : Source → Machine → Outcome Unit) (m m₁ : Machine)
    (hvalue : m.valueOf ev t = .done v m₁) (fuel : Nat) (src : Source) :
    (name.digitsValue ≤ argumentLimit → Invocation.carryOut registry fuel ev src c m =
      .done () (m₁.put name.digitsValue v)) ∧
    (argumentLimit < name.digitsValue → Invocation.carryOut registry fuel ev src c m =
      .failed ((m₁.push ((c.frame src).remember 1 v)).fault .badArgument name) m₁) ∧
    (∀ (d : Call) (digits : Bytes), d.args = [digits] → digits.allDigits = true →
      (name.digitsValue ≤ argumentLimit →
        (digits.digitsValue = name.digitsValue → d.Yields (m₁.put name.digitsValue v) v) ∧
        (digits.digitsValue ≠ name.digitsValue → digits.digitsValue < m₁.scope.frame.size →
          (m₁.put name.digitsValue v).scope.frame.slots[digits.digitsValue]? =
            m₁.scope.frame.slots[digits.digitsValue]?) ∧
        (digits.digitsValue ≠ name.digitsValue → m₁.scope.frame.size ≤ digits.digitsValue →
          (m₁.put name.digitsValue v).scope.frame.slots[digits.digitsValue]?.getD {} = {} ∧
          (m₁.scope.frame.Tells digits.digitsValue →
            d.Yields (m₁.put name.digitsValue v) []))) ∧
      ∀ m : Machine, m.scope.frame.size ≤ digits.digitsValue →
        m.scope.frame.Tells digits.digitsValue → d.Yields m []) ∧
    ∀ digits : Bytes, digits.allDigits = true → digits.ReadExactly := by
  have hrebind := Invocation.carryOut_rebind hargs hname hvalue registry fuel src
  refine ⟨fun hle => by rw [hrebind, if_pos hle],
    fun hlt => by rw [hrebind, if_neg (Nat.not_le.2 hlt)],
    fun d digits hd hdigits => ⟨fun hle => ⟨fun heq => ?_, fun hne hlt => ?_, fun hne hge => ⟨?_,
      fun htells => Call.yields_nothing_put hd hdigits hle hne hge htells v⟩⟩,
      fun m hsize htells => Call.yields_nothing hd hdigits hsize htells⟩,
    fun digits hdigits => Bytes.readExactly hdigits⟩
  · rw [← heq] at hle ⊢
    exact Call.yields_put hd hdigits hle m₁ v
  · rw [Machine.getElem?_put _ _ _ hne, if_pos hlt]
  · rw [Machine.getElem?_put _ _ _ hne, if_neg (Nat.not_lt.2 hge)]
    split <;> rfl

def Machine.single : Machine where
  state := { dictionary := { table := Table.empty 0 } }
  scope := ⟨.ofValues [utf8 "top", utf8 "c"], []⟩

def Call.seventh : Call := ⟨0, 2, [utf8 "0007", utf8 "<~1~b~>a<~1~>"]⟩

def Call.beyond : Call := ⟨0, 2, [utf8 "65537", utf8 "<~1~b~>a<~1~>"]⟩

theorem arguments_get_put_seventh :
    ∃ m₁, Machine.single.valueOf (eval .standard 3) (utf8 "<~1~b~>a<~1~>") =
        .done (utf8 "ab") m₁ ∧
      m₁.scope.frame.slots = [{ value := some (utf8 "top") }, { value := some (utf8 "b") }] ∧
      Invocation.carryOut .standard 3 (eval .standard 3) { bytes := [] } .seventh .single =
        .done () (m₁.put 7 (utf8 "ab")) ∧
      Call.Yields ⟨0, 1, [utf8 "7"]⟩ (m₁.put 7 (utf8 "ab")) (utf8 "ab") ∧
      (m₁.put 7 (utf8 "ab")).scope.frame.slots[1]? = some { value := some (utf8 "b") } ∧
      Call.Yields ⟨0, 1, [utf8 "3"]⟩ (m₁.put 7 (utf8 "ab")) [] ∧
      Invocation.carryOut .standard 3 (eval .standard 3) { bytes := [] } .beyond .single =
        .failed ((m₁.push ((Call.beyond.frame { bytes := [] }).remember 1 (utf8 "ab"))).fault
          .badArgument (utf8 "65537")) m₁ ∧
      Call.Yields ⟨0, 1, [utf8 "99999"]⟩ .single [] := by
  obtain ⟨m₁, hvalue, hslots⟩ : ∃ m₁,
      Machine.single.valueOf (eval .standard 3) (utf8 "<~1~b~>a<~1~>") = .done (utf8 "ab") m₁ ∧
      m₁.scope.frame.slots = [{ value := some (utf8 "top") }, { value := some (utf8 "b") }] :=
    ⟨_, rfl, rfl⟩
  obtain ⟨hput, -, hget, -⟩ := arguments_get_put .standard .seventh rfl rfl (eval .standard 3)
    .single m₁ hvalue 3 { bytes := [] }
  obtain ⟨-, hfail, -, -⟩ := arguments_get_put .standard .beyond rfl rfl (eval .standard 3) .single
    m₁ hvalue 3 { bytes := [] }
  have hsize : m₁.scope.frame.size = 2 := by rw [Frame.size, hslots]; rfl
  obtain ⟨hsame, -, -⟩ := (hget ⟨0, 1, [utf8 "7"]⟩ _ rfl rfl).1 (by decide)
  obtain ⟨-, hother, -⟩ := (hget ⟨0, 1, [utf8 "1"]⟩ _ rfl rfl).1 (by decide)
  obtain ⟨-, -, hnew⟩ := (hget ⟨0, 1, [utf8 "3"]⟩ _ rfl rfl).1 (by decide)
  refine ⟨m₁, hvalue, hslots, hput (by decide), hsame rfl, ?_, ?_, hfail (by decide), ?_⟩
  · have hone := hother (by decide) (by rw [hsize]; decide)
    rw [hslots] at hone
    exact hone
  · exact (hnew (by decide) (by rw [hsize]; decide)).2 (.inl (by decide))
  · exact (hget ⟨0, 1, [utf8 "99999"]⟩ _ rfl rfl).2 .single (by decide) (.inr (by decide))

def Frame.crowded (n : Nat) : Frame :=
  .ofTexts (utf8 "m" :: List.replicate n [] ++ [utf8 "x"])

theorem Frame.size_crowded (n : Nat) : (crowded n).size = n + 2 := by
  simp [size, crowded, ofTexts]

theorem Frame.getElem?_crowded (n : Nat) :
    (crowded n).slots[n + 1]? = some { text := some (utf8 "x") } := by
  simp [crowded, ofTexts]

theorem reference_beyond_last :
    (Frame.crowded argumentLimit).size = 65538 ∧ (utf8 "99999").digitsValue = 99999 ∧
    ∃ m, Invocation.carryOut .standard 1 (eval .standard 1) { bytes := [] } ⟨0, 1, [utf8 "99999"]⟩
        (Machine.single.push (.crowded argumentLimit)) = .done () m ∧
      m.out.toBytes = utf8 "x" := by
  let m := Machine.single.push (.crowded argumentLimit)
  have hslot : m.scope.frame.slots[argumentLimit + 1]? = some { text := some (utf8 "x") } :=
    Frame.getElem?_crowded _
  have hmin : min (utf8 "99999").digitsValue (argumentLimit + 1) = argumentLimit + 1 := rfl
  have hrun := Invocation.carryOut_refer (c := ⟨0, 1, [utf8 "99999"]⟩) rfl rfl .standard 1
    (eval .standard 1) { bytes := [] } m
  rw [hmin, Invocation.refer_eq, Machine.argument_plain (Bytes.isPlain_of_free (by decide)) hslot,
    Outcome.andThen] at hrun
  exact ⟨Frame.size_crowded _, rfl, _, hrun, rfl⟩

end TildeText
