import TildeText.Proofs.Arguments
import TildeText.Proofs.Handles
import TildeText.Proofs.Matching

namespace TildeText

inductive Delimiters (registry : Registry) (e : Entry) :
    List Bytes → Machine → List Bytes → Machine → Prop
  | nil : Delimiters registry e [] m [] m
  | cons {m m₁ m' : Machine} {t d : Bytes} {ts ds : List Bytes} :
      m.Evaluates registry t (.done d m₁) → m₁.table.Has e →
      Delimiters registry e ts m₁ ds m' → Delimiters registry e (t :: ts) m (d :: ds) m'

theorem Delimiters.has {registry : Registry} {e : Entry} {ts ds : List Bytes} {m m' : Machine}
    (h : Delimiters registry e ts m ds m') (hentry : m.table.Has e) : m'.table.Has e := by
  induction h with
  | nil => exact hentry
  | cons _ hfound _ ih => exact ih hfound

theorem Delimiters.out_eq {registry : Registry} {e : Entry} {ts ds : List Bytes} {m m' : Machine}
    (h : Delimiters registry e ts m ds m') : m'.out = m.out := by
  induction h with
  | nil => rfl
  | cons ht _ _ ih => exact ih.trans ht.out_eq

namespace Builtin

section

variable {registry : Registry} {find : Bytes → Bytes → Option Nat} {better : Nat → Nat → Bool}
  {e : Entry} {m m₁ m' : Machine} {target : Bytes} {ts ds : List Bytes} {f : Frame} {n : Nat}

theorem run_bestMatch (find : Bytes → Bytes → Option Nat) (better : Nat → Nat → Bool)
    (h : Delimiters registry e ts m ds m') (hf : f.Unread n ts) :
    ∃ K, ∀ k, K ≤ k → ∀ best, ∃ f',
      Program.run (registry.context (eval registry k))
          (bestMatch find better e.handle best (List.range' n ts.length)) (m.push f) =
        .done (ds.foldl (Match.pick find better e.value) best) (m'.push f') := by
  induction h generalizing f n with
  | nil => exact ⟨0, fun k _ best => ⟨f, rfl⟩⟩
  | @cons m m₁ m' t d ts ds ht hentry _ ih =>
    obtain ⟨K₁, h₁⟩ := ht.eventually
    obtain ⟨K₂, h₂⟩ := ih (hf.remember d)
    refine ⟨max K₁ K₂, fun k hk best => ?_⟩
    obtain ⟨f', hf'⟩ := h₂ k (by omega) (Match.pick find better e.value best d)
    refine ⟨f', ?_⟩
    have hvalue : (m₁.push (f.remember n d)).table.value e.handle = e.value := hentry.value_eq
    have harg : m.valueOf (registry.context (eval registry k)).eval t = .done d m₁ :=
      h₁ k (by omega)
    rw [List.length_cons, List.range'_succ, bestMatch, Program.run_seq, Program.run_arg hf.head,
      harg]
    change Program.run _ (bestMatch find better e.handle (Match.pick find better
      ((m₁.push (f.remember n d)).table.value e.handle) best d) (List.range' (n + 1) ts.length))
        (m₁.push (f.remember n d)) = _
    rw [hvalue]
    exact hf'

theorem run_nameArg {ctx : Context} {v : Bytes} (hf : f.Unread n (target :: ts))
    (hv : m.valueOf ctx.eval target = .done v m₁) (hne : v ≠ []) :
    (Program.nameArg n).run ctx (m.push f) = .done v (m₁.push (f.remember n v)) := by
  rw [Program.nameArg, Program.run_seq, Program.run_arg hf.head, hv]
  simp only [Outcome.andThen, List.isEmpty_eq_false_iff.2 hne, Bool.false_eq_true, if_false]
  rfl

theorem run_variableArg {ctx : Context} (hf : f.Unread 1 (target :: ts))
    (htarget : m.valueOf ctx.eval target = .done e.name m₁) (hname : e.name ≠ [])
    (hentry : m₁.table.Has e) :
    Program.run ctx variableArg (m.push f) = .done e.handle (m₁.push (f.remember 1 e.name)) := by
  obtain ⟨spare, hentry⟩ := hentry
  have hfound : (m₁.push (f.remember 1 e.name)).table.find? e.name = some { e with spare } := hentry
  rw [variableArg, Program.run_seq, run_nameArg hf htarget hname, Outcome.andThen, Program.run_seq,
    Program.handle, Program.run_ask, Request.perform, hfound]
  rfl

theorem run_before {ctx : Context} {b : Match} (h : m.table.Has e) (hb : b.stop ≤ e.value.length) :
    (before e.handle b).run ctx m = .done (e.value.take b.position) m := by
  have htake := h.take_stored (n := b.position) (Nat.le_of_add_right_le hb)
  exact congrArg (Outcome.done · m) htake

theorem run_behind_of_le {ctx : Context} {b : Match} (h : m.table.Has e)
    (hb : b.stop ≤ e.value.length) :
    (behind e.handle b).run ctx m = .done (e.value.drop b.stop) m := by
  rw [run_behind, dif_neg (by rw [h.value_eq]; omega), h.value_eq]

theorem run_takeAt (taken : Handle → Match → Program Bytes) (part left : Bytes → Match → Bytes)
    (htaken : ∀ {b}, b.stop ≤ e.value.length → ∀ {ctx m}, m.table.Has e →
      (taken e.handle b).run ctx m = .done (part e.value b) m)
    (htarget : m.Evaluates registry target (.done e.name m₁)) (hname : e.name ≠ [])
    (hentry : m₁.table.Has e) (hds : Delimiters registry e ts m₁ ds m')
    (hf : f.Unread 1 (target :: ts)) {best : Option Match}
    (hbest : ds.foldl (Match.pick find better e.value) none = best)
    (hfits : Match.Best better e.value ds best) :
    ∃ K, ∀ k, K ≤ k → ∃ f', Program.run (registry.context (eval registry k))
      (takeAt find better taken left) (m.push f) =
        .done (.matched (best.map Match.delimiter))
          (((m'.write (best.elim e.value (part e.value))).setTable
            (m'.table.setValue e.handle (best.elim [] (left e.value)))).push f') := by
  have hunread := hf.remember e.name
  obtain ⟨K₁, h₁⟩ := htarget.eventually
  obtain ⟨K₂, h₂⟩ := run_bestMatch find better hds hunread
  refine ⟨max K₁ K₂, fun k hk => ?_⟩
  obtain ⟨f', hf'⟩ := h₂ k (by omega) none
  refine ⟨f', ?_⟩
  have hhas : (m'.push f').table.Has e := hds.has hentry
  rw [takeAt, locate_bind, Program.run_seq, run_variableArg hf (h₁ k (by omega)) hname hentry,
    Outcome.andThen, Program.run_seq, Program.run_argsFrom hunread, Outcome.andThen,
    Program.run_seq, hf', hbest, Outcome.andThen]
  cases best with
  | none =>
    dsimp only
    rw [Program.run_seq, Program.value, Program.run_ask, Request.perform, hhas.value_eq]
    rfl
  | some b =>
    dsimp only
    rw [Program.run_seq, htaken hfits.stop_le hhas, Outcome.andThen]
    have hvalue : ((m'.push f').write (part e.value b)).table.value e.handle = e.value :=
      hhas.value_eq
    change Outcome.done _ (((m'.push f').write (part e.value b)).setTable
      ((m'.push f').table.setValue e.handle
        (left (((m'.push f').write (part e.value b)).table.value e.handle) b))) = _
    rw [hvalue]
    rfl

end

end Builtin

/-- An invocation that is done, wherever it stands, and the machine in which it is. -/
def Call.LeadsTo (registry : Registry) (c : Call) (m m' : Machine) : Prop :=
  ∀ src, Outcome.Reached (fun k => Invocation.carryOut registry k (eval registry k) src c m)
    (.done () m')

theorem Call.LeadsTo.unique {registry : Registry} {c : Call} {m m₁ m₂ : Machine}
    (h₁ : c.LeadsTo registry m m₁) (h₂ : c.LeadsTo registry m m₂) : m₁ = m₂ := by
  have heq := Outcome.Reached.unique
    (fun _ _ hk => Invocation.carryOut_upTo hk ⟨[], []⟩ c m) (h₁ _) (h₂ _)
  cases heq
  rfl

/-- The first argument text names an entry, and the others give delimiters without touching it. -/
structure Delimits (registry : Registry) (target : Bytes) (texts : List Bytes) (m : Machine)
    (e : Entry) (ds : List Bytes) (m' : Machine) : Prop where
  named : e.name ≠ []
  found : ∃ m₁, m.Evaluates registry target (.done e.name m₁) ∧ m₁.table.Has e ∧
    Delimiters registry e texts m₁ ds m'

def Machine.taking (m : Machine) (e : Entry) (out : Bytes) (d : Option Bytes) (rest : Bytes) :
    Machine :=
  ((m.write out).setTable (m.table.setValue e.handle rest)).mapFrame (·.rebind 0 d)

namespace Delimits

variable {registry : Registry} {target : Bytes} {texts ds : List Bytes} {m m' : Machine} {e : Entry}

theorem has (h : Delimits registry target texts m e ds m') : m'.table.Has e := by
  obtain ⟨m₁, -, hentry, hds⟩ := h.found
  exact hds.has hentry

theorem out_eq (h : Delimits registry target texts m e ds m') : m'.out = m.out := by
  obtain ⟨m₁, htarget, -, hds⟩ := h.found
  exact hds.out_eq.trans htarget.out_eq

theorem of_plain (hname : e.name ≠ []) (hplain : ∀ t ∈ e.name :: texts, t.IsPlain)
    (hentry : m.table.Has e) : Delimits registry e.name texts m e texts m := by
  obtain ⟨htarget, htexts⟩ := List.forall_mem_cons.1 hplain
  refine ⟨hname, m, htarget.evaluates registry m, hentry, ?_⟩
  clear hplain
  induction texts with
  | nil => exact .nil
  | cons t ts ih =>
    obtain ⟨ht, hts⟩ := List.forall_mem_cons.1 htexts
    exact .cons (ht.evaluates registry m) hentry (ih hts)

end Delimits

namespace Side

open Builtin

variable {side : Side} {registry : Registry} {target : Bytes} {texts ds : List Bytes}
  {m m' : Machine} {e : Entry}

theorem name_isPlain (side : Side) : side.name.IsPlain := by
  cases side <;> exact Bytes.isPlain_of_free (by decide)

theorem name_allDigits (side : Side) : side.name.allDigits = false := by
  cases side <;> rfl

theorem run_builtin (side : Side) (h : Delimits registry target texts m e ds m') :
    ∃ out d rest, side.Splits e.value ds out d rest ∧
      ∀ f : Frame, f.Unread 1 (target :: texts) → ∃ K, ∀ k, K ≤ k → ∃ f',
        Program.run (registry.context (eval registry k)) side.builtin (m.push f) =
          .done (.matched d)
            (((m'.write out).setTable (m'.table.setValue e.handle rest)).push f') := by
  obtain ⟨m₁, htarget, hentry, hds⟩ := h.found
  cases side with
  | front =>
    have hbest := Match.best_of_foldl Bytes.finds_index? e.value ds
    exact ⟨_, _, _, splits_front hbest, fun f hf => run_takeAt before (fun s b => s.take b.position)
      (fun s b => s.drop b.stop) (fun hb _ _ h => run_before h hb) htarget h.named hentry hds hf rfl
      hbest⟩
  | back =>
    have hbest := Match.best_of_foldl Bytes.finds_lastIndex? e.value ds
    exact ⟨_, _, _, splits_back hbest, fun f hf => run_takeAt behind (fun s b => s.drop b.stop)
      (fun s b => s.take b.position) (fun hb _ _ h => run_behind_of_le h hb) htarget h.named hentry
      hds hf rfl hbest⟩

theorem leadsTo (hside : registry.lookup side.name = some side.builtin)
    (h : Delimits registry target texts m e ds m') :
    ∃ out d rest, side.Splits e.value ds out d rest ∧
      ∀ c : Call, c.args = side.name :: target :: texts →
        c.LeadsTo registry m (m'.taking e out d rest) := by
  obtain ⟨out, d, rest, hsplits, hrun⟩ := side.run_builtin h
  refine ⟨out, d, rest, hsplits, fun c hargs src => ?_⟩
  obtain ⟨K, hK⟩ := hrun _ (Frame.Unread.ofCall hargs src side.name)
  obtain ⟨f', hf'⟩ := hK (K + 1) (Nat.le_succ K)
  refine ⟨by simp, K + 1, ?_⟩
  simp only [Invocation.carryOut_builtin hargs side.name_isPlain side.name_allDigits hside,
    Invocation.builtin_succ, hf']
  rfl

end Side

namespace Machine

variable {e : Entry} {m : Machine}

theorem toBytes_out_taking (m : Machine) (e : Entry) (out : Bytes) (d : Option Bytes)
    (rest : Bytes) : (m.taking e out d rest).out.toBytes = m.out.toBytes ++ out :=
  Output.toBytes_write _ _

theorem has_taking (h : m.table.Has e) (out : Bytes) (d : Option Bytes) (rest : Bytes) :
    (m.taking e out d rest).table.Has { e with value := rest } := by
  obtain ⟨spare, hfind⟩ := h
  have htable : (m.taking e out d rest).table = m.table.setValue e.handle rest := rfl
  refine ⟨({ e with spare } : Entry).stored.drop rest.length, ?_⟩
  rw [htable, Table.find?_setValue, hfind, Option.map_some]
  exact congrArg some (Entry.setValue_of_handle (e := { e with spare }) rfl rest)

theorem slots_taking (m : Machine) (e : Entry) (out : Bytes) (d : Option Bytes) (rest : Bytes) :
    (m.taking e out d rest).scope.frame.slots[0]? = some { value := d } := by
  have hframe : (m.taking e out d rest).scope.frame = m.scope.frame.rebind 0 d := rfl
  rw [hframe, Frame.rebind]
  cases hs : m.scope.frame.slots with
  | nil => simp [Frame.size, hs]
  | cons s ss => simp [Frame.size, hs]

end Machine

/-- Invoking a builtin again and again as long as a variable is not empty, with what is written and
the delimiter that is told each time. -/
inductive Dismantling (registry : Registry) (c : Call) (target : Bytes) (texts : List Bytes) :
    Machine → Entry → List (Bytes × Option Bytes) → Machine → Entry → Prop
  | none : Dismantling registry c target texts m e [] m e
  | more {m m₁ m₂ m' : Machine} {e e₂ e' : Entry} {ds : List Bytes} {out : Bytes}
      {d : Option Bytes} {ps : List (Bytes × Option Bytes)} :
      e.value ≠ [] → Delimits registry target texts m e ds m₁ → c.LeadsTo registry m m₂ →
      m₂.out.toBytes = m.out.toBytes ++ out → m₂.scope.frame.slots[0]? = some { value := d } →
      m₂.table.find? e.name = some e₂ → Dismantling registry c target texts m₂ e₂ ps m' e' →
      Dismantling registry c target texts m e ((out, d) :: ps) m' e'

theorem Dismantling.find?_eq {registry : Registry} {c : Call} {target : Bytes} {texts : List Bytes}
    {m m' : Machine} {e e' : Entry} {ps : List (Bytes × Option Bytes)}
    (h : Dismantling registry c target texts m e ps m' e')
    (hentry : m.table.find? e.name = some e) :
    e'.name = e.name ∧ m'.table.find? e'.name = some e' := by
  induction h with
  | none => exact ⟨rfl, hentry⟩
  | more _ _ _ _ _ hfound _ ih =>
    have hname := Table.name_of_find? hfound
    rw [← hname] at hfound ⊢
    exact ih hfound

namespace Side

variable {side : Side} {registry : Registry} {c : Call} {target : Bytes} {texts ds : List Bytes}
  {m m' : Machine} {e e' : Entry} {ps : List (Bytes × Option Bytes)}

theorem restore_of_dismantling (hside : registry.lookup side.name = some side.builtin)
    (hargs : c.args = side.name :: target :: texts)
    (h : Dismantling registry c target texts m e ps m' e') :
    ps.length + e'.value.length ≤ e.value.length ∧
      e.value = side.restore (side.rejoin ps) e'.value := by
  induction h with
  | none => cases side <;> simp [restore, rejoin]
  | @more m m₁ m₂ m' e e₂ e' ds out d ps hne hdelimits hleads hout hslot hfound _ ih =>
    obtain ⟨out', d', rest, hsplits, hleads'⟩ := leadsTo hside hdelimits
    obtain rfl := hleads.unique (hleads' c hargs)
    obtain rfl : out' = out := by
      rw [Machine.toBytes_out_taking, hdelimits.out_eq] at hout
      exact List.append_cancel_left hout
    obtain rfl : d' = d := by
      rw [Machine.slots_taking] at hslot
      cases hslot
      rfl
    obtain ⟨spare, rfl⟩ : ∃ spare, { e with value := rest, spare } = e₂ := by
      obtain ⟨spare, hfind⟩ := Machine.has_taking hdelimits.has out' d' rest
      exact ⟨spare, Option.some.inj (hfind.symm.trans hfound)⟩
    obtain ⟨hlen, heq⟩ := ih
    have hlt := hsplits.length_lt hne
    refine ⟨by simp only [List.length_cons] at hlen ⊢; omega, ?_⟩
    calc e.value = side.restore (side.rejoin [(out', d')]) rest := hsplits.restore_eq
      _ = side.restore (side.rejoin [(out', d')]) (side.restore (side.rejoin ps) e'.value) := by
        rw [← heq]
      _ = side.restore (side.rejoin ((out', d') :: ps)) e'.value :=
        (restore_rejoin_cons _ _ _).symm

theorem exists_dismantling (hside : registry.lookup side.name = some side.builtin)
    (hargs : c.args = side.name :: target :: texts)
    (h : ∀ ps m' e', Dismantling registry c target texts m e ps m' e' → e'.value ≠ [] →
      ∃ ds m₁, Delimits registry target texts m' e' ds m₁) :
    ∃ ps m' e', Dismantling registry c target texts m e ps m' e' ∧ e'.value = [] := by
  -- What is left of the value gets shorter each time.
  induction hn : e.value.length using Nat.strongRecOn generalizing m e with
  | ind n ih =>
    by_cases hne : e.value = []
    · exact ⟨[], m, e, .none, hne⟩
    · obtain ⟨ds, m₁, hdelimits⟩ := h [] m e .none hne
      obtain ⟨out, d, rest, hsplits, hleads⟩ := leadsTo hside hdelimits
      obtain ⟨spare, hfind⟩ := Machine.has_taking hdelimits.has out d rest
      have hmore (ps : List (Bytes × Option Bytes)) (m' : Machine) (e' : Entry)
          (hps : Dismantling registry c target texts (m₁.taking e out d rest)
            { e with value := rest, spare } ps m' e') :
          Dismantling registry c target texts m e ((out, d) :: ps) m' e' :=
        .more hne hdelimits (hleads c hargs)
          (by rw [Machine.toBytes_out_taking, hdelimits.out_eq]) (Machine.slots_taking _ _ _ _ _)
          hfind hps
      have hlt : rest.length < n := hn ▸ hsplits.length_lt hne
      obtain ⟨ps, m', e', hps, hempty⟩ :=
        ih _ hlt (fun ps m' e' hps => h _ m' e' (hmore ps m' e' hps)) rfl
      exact ⟨_, m', e', hmore ps m' e' hps, hempty⟩

end Side

/-- Taking a variable apart loses nothing. Where the delimiters can be had without touching it, a
part is taken off the side, and the value falls into what is written, the delimiter that is told as
argument 0 around, and what is left; no delimiter is met before that from the side, and of those met
there it is the one listed first. Without a match all is taken. So, as long as the delimiters can be
had, doing it again and again empties the variable in no more steps than the value has bytes, and
the pieces and delimiters make up the value, for the back in reverse. -/
theorem side_takes_apart (registry : Registry) (side : Side)
    (hside : registry.lookup side.name = some side.builtin) (c : Call)
    (hargs : c.args = side.name :: target :: texts) :
    (∀ m e ds m₁, Delimits registry target texts m e ds m₁ → ∃ out d rest,
      side.Splits e.value ds out d rest ∧ c.LeadsTo registry m (m₁.taking e out d rest) ∧
      (c.WellFenced → ∀ label, Outcome.Reached (fun k => eval registry k ⟨label, c.render⟩ m)
        (.done () (m₁.taking e out d rest))) ∧
      (m₁.taking e out d rest).out.toBytes = m.out.toBytes ++ out ∧
      (m₁.taking e out d rest).scope.frame.slots[0]? = some { value := d } ∧
      (m₁.taking e out d rest).table.Has { e with value := rest }) ∧
    (∀ m e ps m' e', Dismantling registry c target texts m e ps m' e' →
      ps.length ≤ e.value.length ∧ (e'.value = [] → side.rejoin ps = e.value)) ∧
    ∀ m e, (∀ ps m' e', Dismantling registry c target texts m e ps m' e' → e'.value ≠ [] →
        ∃ ds m₁, Delimits registry target texts m' e' ds m₁) →
      ∃ ps m' e', Dismantling registry c target texts m e ps m' e' ∧ e'.value = [] := by
  refine ⟨fun m e ds m₁ h => ?_, fun m e ps m' e' h => ?_, fun m e h => ?_⟩
  · obtain ⟨out, d, rest, hsplits, hleads⟩ := Side.leadsTo hside h
    refine ⟨out, d, rest, hsplits, hleads c hargs, fun hc label => ?_, ?_,
      Machine.slots_taking _ _ _ _ _, Machine.has_taking h.has _ _ _⟩
    · exact (hc.reached_iff registry label m _).2 (hleads c.atStart hargs _)
    · rw [Machine.toBytes_out_taking, h.out_eq]
  · obtain ⟨hlen, heq⟩ := Side.restore_of_dismantling hside hargs h
    refine ⟨by omega, fun hempty => ?_⟩
    rw [heq, hempty]
    cases side <;> simp [Side.restore]
  · exact Side.exists_dismantling hside hargs h

def Machine.holding (e : Entry) : Machine where
  state := { dictionary := { table := (Table.empty 0).install e.name e.value } }
  scope := ⟨.ofValues [utf8 "top"], []⟩

def Entry.commas : Entry := { name := utf8 "v", value := utf8 "a,;b,,;c", serial := 0 }

def Call.atCommas (side : Side) : Call :=
  ⟨0, 2, [side.name, utf8 "v", utf8 ",", utf8 ",;", []]⟩

theorem side_takes_apart_commas :
    (∃ out d rest, Side.front.Splits Entry.commas.value [utf8 ",", utf8 ",;", []] out d rest ∧
      Outcome.Reached (fun k => eval .standard k ⟨[], (Call.atCommas .front).render⟩
        (.holding .commas)) (.done () ((Machine.holding .commas).taking .commas out d rest))) ∧
    (∃ ps m' e', Dismantling .standard (Call.atCommas .front) (utf8 "v") [utf8 ",", utf8 ",;", []]
      (.holding .commas) .commas ps m' e' ∧ ps.length ≤ 8 ∧
        Side.front.rejoin ps = utf8 "a,;b,,;c") ∧
    ∃ ps m' e', Dismantling .standard (Call.atCommas .back) (utf8 "v") [utf8 ",", utf8 ",;", []]
      (.holding .commas) .commas ps m' e' ∧ ps.length ≤ 8 ∧
        Side.back.rejoin ps = utf8 "a,;b,,;c" := by
  have hfree : ∀ t ∈ Entry.commas.name :: [utf8 ",", utf8 ",;", []],
      Token.lt ∉ t ∧ Token.tilde ∉ t := by decide
  have hplain : ∀ t ∈ Entry.commas.name :: [utf8 ",", utf8 ",;", []], t.IsPlain :=
    fun t ht => Bytes.isPlain_of_free (hfree t ht)
  have hentry : (Machine.holding .commas).table.find? Entry.commas.name = some .commas := rfl
  have hwhole (side : Side) (hside : Registry.standard.lookup side.name = some side.builtin) :
      ∃ ps m' e', Dismantling .standard (Call.atCommas side) (utf8 "v") [utf8 ",", utf8 ",;", []]
        (.holding .commas) .commas ps m' e' ∧ ps.length ≤ 8 ∧
          side.rejoin ps = utf8 "a,;b,,;c" := by
    obtain ⟨-, hbound, hexists⟩ := side_takes_apart .standard side hside (Call.atCommas side) rfl
    obtain ⟨ps, m', e', hps, hempty⟩ := hexists (.holding .commas) .commas fun ps m' e' hps _ => by
      obtain ⟨hname, hfound⟩ := hps.find?_eq hentry
      have hdelimits : Delimits .standard e'.name _ m' e' _ m' :=
        .of_plain (by rw [hname]; decide) (by rwa [hname]) ⟨_, hfound⟩
      rw [hname] at hdelimits
      exact ⟨_, m', hdelimits⟩
    exact ⟨ps, m', e', hps, (hbound _ _ _ _ _ hps).1, (hbound _ _ _ _ _ hps).2 hempty⟩
  refine ⟨?_, hwhole .front rfl, hwhole .back rfl⟩
  have hfenced : (Call.atCommas .front).WellFenced :=
    ⟨by decide, by decide, _, _, rfl, by decide, by decide, by decide⟩
  obtain ⟨out, d, rest, hsplits, -, heval, -⟩ := (side_takes_apart .standard .front rfl
    (Call.atCommas .front) rfl).1 _ _ _ _ (.of_plain (by decide) hplain ⟨_, hentry⟩)
  exact ⟨out, d, rest, hsplits, heval hfenced []⟩

end TildeText
