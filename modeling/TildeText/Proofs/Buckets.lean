import TildeText.Proofs.Handles
import TildeText.Proofs.Hosts
import TildeText.Proofs.Matching

namespace TildeText

def Request.usesHandle : Request → Bool
  | .handle _ | .obtain _ | .value _ | .stored _ | .setValue _ _ => true
  | _ => false

theorem Request.usesHandle_of_isBasic {r : Request} (h : r.isBasic = true) :
    r.usesHandle = false := by
  cases r with
  | handle name => cases h
  | obtain name => cases h
  | value h => cases h
  | stored h => cases h
  | setValue h v => cases h
  | _ => rfl

theorem Request.usesHandle_of_isCommon {r : Request} (h : r.isCommon = true) :
    r.usesHandle = false :=
  usesHandle_of_isBasic (isBasic_of_isCommon h)

/-- Machines with related tables that have all else in common, and have reported the same up to the
order of the records in a report. Their writers never fail. -/
structure Machine.Rehashed (T : Table → Table → Prop) (m m' : Machine) : Prop where
  table : T m.table m'.table
  library : m.state.dictionary.library = m'.state.dictionary.library
  storage : m.state.storage = m'.state.storage
  serial : m.state.serial = m'.state.serial
  ticks : m.state.ticks = m'.state.ticks
  accepts : m.state.diagnostics.Accepts
  accepts' : m'.state.diagnostics.Accepts
  reports : List.Forall₂ List.Perm m.state.diagnostics.written.backwards
    m'.state.diagnostics.written.backwards
  scope : m.scope = m'.scope
  out : m.out = m'.out

namespace Machine.Rehashed

variable {T T' : Table → Table → Prop} {m m' m₁ m₁' : Machine}

theorem imp (h : m.Rehashed T m') (hT : ∀ t t', T t t' → T' t t') : m.Rehashed T' m' :=
  { h with table := hT _ _ h.table }

theorem setTable (h : m.Rehashed T m') {t t' : Table} (ht : T' t t') :
    (m.setTable t).Rehashed T' (m'.setTable t') :=
  { h with table := ht }

theorem mapScope (h : m.Rehashed T m') (f : Scope → Scope) :
    Rehashed T { m with scope := f m.scope } { m' with scope := f m'.scope } :=
  { h with scope := congrArg f h.scope }

theorem write (h : m.Rehashed T m') (s : Bytes) : (m.write s).Rehashed T (m'.write s) :=
  { h with out := congrArg (Output.write · s) h.out }

theorem mapFrame (h : m.Rehashed T m') (f : Frame → Frame) :
    (m.mapFrame f).Rehashed T (m'.mapFrame f) :=
  h.mapScope fun s => { s with frame := f s.frame }

theorem report (h : m.Rehashed T m') {records records' : List Bytes} (hr : records.Perm records') :
    (m.report records).Related (Rehashed T) Eq (m'.report records') := by
  obtain ⟨w, hw, haccepts, hwritten⟩ := h.accepts.write records
  obtain ⟨w', hw', haccepts', hwritten'⟩ := h.accepts'.write records'
  rw [Machine.report, Machine.report, hw, hw']
  refine .done { h with accepts := haccepts, accepts' := haccepts', reports := ?_ }
  change List.Forall₂ List.Perm w.written.backwards w'.written.backwards
  rw [hwritten, hwritten']
  exact .cons hr h.reports

theorem slots_eq (h : m.Rehashed T m') : m.scope.frame.slots = m'.scope.frame.slots := by
  rw [h.scope]

theorem aside (h : m.Rehashed T m') : m.aside.Rehashed T m'.aside :=
  { h with scope := congrArg Scope.around h.scope, out := rfl }

theorem resume (h : m.Rehashed T m') (h₁ : m₁.Rehashed T' m₁') (f : Frame) :
    (m.resume f m₁).Rehashed T' (m'.resume f m₁') := by
  refine { h₁ with scope := ?_, out := h.out }
  rw [Machine.resume, Machine.resume, h.scope, h₁.scope]

variable {links : List Table.Link}

theorem perform (h : m.Rehashed (Table.Alike links) m') (ctx : Context) (r : Request)
    (hq : r.usesHandle = false) (hr : r.evaluates = false) :
    (r.perform ctx m).Related (Rehashed (Table.Alike links)) Eq (r.perform ctx m') := by
  cases r with
  | argument n => cases hr
  | evalHere src => cases hr
  | evalUnder label src => cases hr
  | handle name => cases hq
  | obtain name => cases hq
  | value h => cases hq
  | stored h => cases hq
  | setValue h v => cases hq
  | argCount =>
    rw [Request.perform, Request.perform, h.scope]
    exact .done h
  | raw n =>
    rw [Request.perform, Request.perform, h.scope]
    exact .done h
  | listing =>
    rw [Request.perform, Request.perform, h.scope]
    exact .done h
  | assign n v => exact .done (h.mapFrame _)
  | forget n => exact .done (h.mapFrame _)
  | write s => exact .done (h.write s)
  | isBuiltin name => exact .done h
  | lookup name =>
    rw [Request.perform, Request.perform, h.table.find?_value]
    exact .done h
  | install name v => exact .done (h.setTable (h.table.install name v))
  | delete name => exact .done (h.setTable (h.table.delete name))
  | load name =>
    rw [Request.perform, Request.perform, h.storage]
    exact .done { h with storage := rfl }
  | store name content =>
    rw [Request.perform, Request.perform, h.storage]
    exact .done { h with storage := rfl }
  | print s => exact h.report (.refl [s])
  | dump => exact h.report h.table.lines_perm
  | serial =>
    rw [Request.perform, Request.perform, h.serial]
    exact .done { h with serial := rfl }
  | tick =>
    rw [Request.perform, Request.perform, h.ticks]
    exact .done { h with ticks := rfl }

theorem find (h : m.Rehashed (Table.Alike links) m') (name : Bytes) :
    Machine.Found (Rehashed (Table.Alike links)) m m'
      (m.state.dictionary.find m.state.storage.system name)
      (m'.state.dictionary.find m'.state.storage.system name) := by
  rw [Dictionary.find, Dictionary.find, ← h.library, ← h.storage]
  rcases h.table.find? name with ⟨hf, hf'⟩ | ⟨e, e', hf, hf', hv⟩
  · rw [Machine.table] at hf hf'
    rw [hf, hf']
    cases (m.state.dictionary.library.paths name).findSome? m.state.storage.system.content? with
    | none => exact .error
    | some content =>
      exact .ok rfl rfl { h with table := h.table.link hf content, library := rfl }
  · rw [Machine.table] at hf hf'
    rw [hf, hf']
    have hname : e.name = e'.name :=
      (Table.name_of_find? hf).trans (Table.name_of_find? hf').symm
    exact .ok hname hv h

theorem simulation :
    Simulation (·.usesHandle = false) (fun links => Rehashed (Table.Alike links)) Eq Eq where
  calls _ _ _ := rfl
  defects _ := .refl (fun _ => rfl) _ _
  under _ := rfl
  slots h := h.slots_eq
  fault h _ _ _ := by rw [Machine.fault, Machine.fault, h.scope]
  own _ := rfl
  write h s := h.write s
  perform h ctx r hq hr := h.perform ctx r hq hr
  argument {registry k w m m'} he h n := by
    refine he.argument h h.slots_eq h.aside (fun m₁ m₁' h₁ => ?_) n
    rw [← h.scope]
    exact ⟨h₁.out, h.resume h₁ _, fun n v => h.resume h₁ _⟩
  push {w m m' f f'} h hf := by
    subst hf
    exact ⟨w, h.mapScope (·.push f), fun _ _ h₁ => h₁.mapScope Scope.around⟩
  rebind h n v := h.mapFrame (·.rebind n v)
  find h name := h.find name

end Machine.Rehashed

/-- Programs that go alike on machines with linked handles, and leave the handles linked. -/
def Program.Twin (ctx : Context) (links : List Table.Link) (p p' : Program α) : Prop :=
  ∀ m m', m.Rehashed (Table.Alike links) m' →
    (p.run ctx m).Related (Machine.Rehashed (Table.Alike links)) Eq (p'.run ctx m')

namespace Program.Twin

variable {ctx : Context} {links : List Table.Link} {l : Table.Link}

theorem bind {p p' : Program α} {f f' : α → Program β} (hp : Twin ctx links p p')
    (hf : ∀ a, Twin ctx links (f a) (f' a)) : Twin ctx links (p >>= f) (p' >>= f') := by
  intro m m' h
  have hfirst : (p.run ctx m).Follows False _ _ (p'.run ctx m') := .inr (hp m m' h)
  rw [run_seq, run_seq]
  exact (hfirst.andThen fun a m₁ m₁' h₁ => .inr (hf a m₁ m₁' h₁)).related

theorem forM {xs : List α} {f f' : α → Program Unit} (hf : ∀ a, Twin ctx links (f a) (f' a)) :
    Twin ctx links (xs.forM f) (xs.forM f') := by
  induction xs with
  | nil => exact fun _ _ h => .done h
  | cons x xs ih => exact bind (hf x) fun _ => ih

theorem value {f f' : Bytes → Program α} (hl : l ∈ links)
    (hf : ∀ s, ∃ n, n ≤ s.length ∧ Twin ctx ({ l with shared := n } :: links) (f s) (f' s)) :
    Twin ctx links (Program.value l.left >>= f) (Program.value l.right >>= f') := by
  intro m m' h
  have hrun (g : Handle) (k : Bytes → Program α) (m : Machine) :
      (Program.value g >>= k).run ctx m = (k (m.table.value g)).run ctx m := rfl
  rw [hrun, hrun, ← h.table.value hl]
  obtain ⟨n, hn, hrest⟩ := hf (m.table.value l.left)
  have hshared := hrest m m' { h with table := h.table.share hl hn }
  exact hshared.imp fun _ _ h₁ => h₁.imp fun _ _ => Table.Alike.unlink

theorem behind {g g' : Handle} {b : Builtin.Match} (hl : ⟨g, g', n⟩ ∈ links) :
    Twin ctx links (Builtin.behind g b) (Builtin.behind g' b) := by
  refine value hl fun s => ⟨0, Nat.zero_le _, ?_⟩
  split
  · exact fun _ _ h => .failed rfl h
  · exact fun _ _ h => .done h

theorem before {g g' : Handle} {b : Builtin.Match} (hl : ⟨g, g', b.position⟩ ∈ links) :
    Twin ctx links (Builtin.before g b) (Builtin.before g' b) := by
  intro m m' h
  have hrun (g : Handle) (m : Machine) :
      (Builtin.before g b).run ctx m = .done ((m.table.stored g).take b.position) m := rfl
  rw [hrun, hrun, h.table.take_stored hl]
  exact .done h

theorem setValue (hl : l ∈ links) (v : Bytes) :
    Twin ctx links (Program.setValue l.left v) (Program.setValue l.right v) :=
  fun _ _ h => .done (h.setTable (h.table.setLinked hl v))

theorem handle {f f' : Option Handle → Program α} (name : Bytes)
    (hnone : Twin ctx links (f none) (f' none))
    (hsome : ∀ g g', Twin ctx (⟨g, g', 0⟩ :: links) (f (some g)) (f' (some g'))) :
    Twin ctx links (Program.handle name >>= f) (Program.handle name >>= f') := by
  intro m m' h
  have hrun (k : Option Handle → Program α) (m : Machine) :
      (Program.handle name >>= k).run ctx m =
        (k ((m.table.find? name).map Entry.handle)).run ctx m := rfl
  rw [hrun, hrun]
  rcases h.table.find? name with ⟨hf, hf'⟩ | ⟨e, e', hf, hf', -⟩
  · rw [hf, hf']
    exact hnone m m' h
  · rw [hf, hf']
    have hlinked := hsome e.handle e'.handle m m' { h with table := h.table.link_found hf hf' }
    exact hlinked.imp fun _ _ h₁ => h₁.imp fun _ _ => Table.Alike.unlink

theorem obtain {f f' : Handle → Program α} (name : Bytes)
    (hf : ∀ g g', Twin ctx (⟨g, g', 0⟩ :: links) (f g) (f' g')) :
    Twin ctx links (Program.obtain name >>= f) (Program.obtain name >>= f') := by
  intro m m' h
  have hlinked := hf _ _ _ _ (h.setTable (h.table.obtain name))
  exact hlinked.imp fun _ _ h₁ => h₁.imp fun _ _ => Table.Alike.unlink

section

variable {registry : Registry} {k : Nat}
  (he : Keeps (fun links => Machine.Rehashed (Table.Alike links)) Eq (eval registry k))

include he

theorem same {p : Program α} (hp : p.AsksOnly (·.usesHandle = false)) :
    Twin (registry.context (eval registry k)) links p p :=
  fun _ _ h => Machine.Rehashed.simulation.program he p hp h

theorem arg (n : Nat) :
    Twin (registry.context (eval registry k)) links (Program.arg n) (Program.arg n) :=
  same he (.arg (fun _ => Request.usesHandle_of_isCommon) n)

theorem argsFrom (n : Nat) :
    Twin (registry.context (eval registry k)) links (Program.argsFrom n) (Program.argsFrom n) :=
  same he (.argsFrom (fun _ => Request.usesHandle_of_isCommon) n)

theorem nameArg (n : Nat) :
    Twin (registry.context (eval registry k)) links (Program.nameArg n) (Program.nameArg n) :=
  same he (.nameArg (fun _ => Request.usesHandle_of_isCommon) trivial n)

theorem append : Twin (registry.context (eval registry k)) links Builtin.append Builtin.append := by
  refine bind (nameArg he 1) fun name => obtain name fun g g' => ?_
  have hl : ⟨g, g', 0⟩ ∈ (⟨g, g', 0⟩ :: links : List Table.Link) := List.mem_cons_self
  refine bind (argsFrom he 2) fun args => bind (forM fun n => ?_) fun _ => same he (.pure _)
  exact bind (arg he n) fun v => value hl fun s =>
    ⟨0, Nat.zero_le _, setValue (List.mem_cons_of_mem _ hl) (s ++ v)⟩

theorem bestMatch {find : Bytes → Bytes → Option Nat} {better : Nat → Nat → Bool}
    (hfind : Finds find better) {f f' : Option Builtin.Match → Program α} {g g' : Handle}
    (hl : ∃ n, ⟨g, g', n⟩ ∈ links) (best : Option Builtin.Match)
    (hbest : ∀ b ∈ best, ⟨g, g', b.position⟩ ∈ links) (args : List Nat)
    (hf : ∀ links best, (∃ n, ⟨g, g', n⟩ ∈ links) → (∀ b ∈ best, ⟨g, g', b.position⟩ ∈ links) →
      Twin (registry.context (eval registry k)) links (f best) (f' best)) :
    Twin (registry.context (eval registry k)) links
      (Builtin.bestMatch find better g best args >>= f)
      (Builtin.bestMatch find better g' best args >>= f') := by
  induction args generalizing best links with
  | nil => exact hf links best hl hbest
  | cons n rest ih =>
    have hstep (g : Handle) (f : Option Builtin.Match → Program α) :
        Builtin.bestMatch find better g best (n :: rest) >>= f =
          Program.arg n >>= fun d => Program.value g >>= fun s =>
            Builtin.bestMatch find better g (Builtin.Match.pick find better s best d) rest >>=
              f := by
      exact Program.bind_assoc (Program.arg n) _ f
    rw [hstep, hstep]
    obtain ⟨shared, hl⟩ := hl
    refine bind (arg he n) fun d => value hl fun s => ?_
    cases hd : find s d with
    | none =>
      have hpick : Builtin.Match.pick find better s best d = best := by
        simp [Builtin.Match.pick, hd]
      rw [hpick]
      exact ⟨0, Nat.zero_le _, ih ⟨_, List.mem_cons_self⟩ best
        fun b hb => List.mem_cons_of_mem _ (hbest b hb)⟩
    | some i =>
      refine ⟨i, Nat.le_of_add_right_le (hfind.stop_le hd), ih ⟨_, List.mem_cons_self⟩ _ ?_⟩
      intro b hb
      rcases Builtin.Match.pick_eq_some hd hb with rfl | hb
      · exact List.mem_cons_self
      · exact List.mem_cons_of_mem _ (hbest b hb)

theorem variableArg {f f' : Handle → Program α}
    (hf : ∀ g g', Twin (registry.context (eval registry k)) (⟨g, g', 0⟩ :: links) (f g) (f' g')) :
    Twin (registry.context (eval registry k)) links (Builtin.variableArg >>= f)
      (Builtin.variableArg >>= f') := by
  have hassoc (f : Handle → Program α) : Builtin.variableArg >>= f = _ :=
    Program.bind_assoc (Program.nameArg 1) _ f
  rw [hassoc, hassoc]
  exact bind (nameArg he 1) fun name => handle name (same he trivial) hf

theorem takeAt {find : Bytes → Bytes → Option Nat} {better : Nat → Nat → Bool}
    (hfind : Finds find better) (taken : Handle → Builtin.Match → Program Bytes)
    (htaken : ∀ links g g' b, ⟨g, g', b.position⟩ ∈ links →
      Twin (registry.context (eval registry k)) links (taken g b) (taken g' b))
    (left : Bytes → Builtin.Match → Bytes) :
    Twin (registry.context (eval registry k)) links (Builtin.takeAt find better taken left)
      (Builtin.takeAt find better taken left) := by
  rw [Builtin.takeAt, Builtin.locate_bind]
  refine variableArg he fun g g' => bind (argsFrom he 2) fun args => ?_
  refine bestMatch he hfind ⟨0, List.mem_cons_self⟩ none nofun args fun links best hl hbest => ?_
  cases best with
  | none =>
    obtain ⟨n, hl⟩ := hl
    exact value hl fun s => ⟨0, Nat.zero_le _, bind (same he (.ask rfl)) fun _ =>
      bind (setValue (List.mem_cons_of_mem _ hl) []) fun _ => same he (.pure _)⟩
  | some b =>
    have hl := hbest b rfl
    exact bind (htaken links g g' b hl) fun _ => bind (same he (.ask rfl)) fun _ =>
      value hl fun s =>
      ⟨0, Nat.zero_le _, bind (setValue (List.mem_cons_of_mem _ hl) (left s b)) fun _ =>
        same he (.pure _)⟩

end

end Program.Twin

namespace Machine.Rehashed

theorem keeps_standard (he : Keeps (fun links => Rehashed (Table.Alike links)) Eq
    (eval .standard k)) :
    Registry.standard.Keeps (fun links => Rehashed (Table.Alike links)) Eq (eval .standard k) := by
  intro entry hentry links m m' h
  have hQ (r : Request) : r.isCommon = true → r.usesHandle = false := Request.usesHandle_of_isCommon
  have same {b : Builtin} (hb : b.AsksOnly (·.usesHandle = false)) := simulation.program he b hb h
  rcases Registry.standard_cases (P := fun _ => True) (fun _ _ => trivial) entry hentry with hs | hb
  · simp only [Registry.special, List.mem_cons, List.not_mem_nil, or_false] at hs
    rcases hs with rfl | rfl | rfl | rfl | rfl | rfl | rfl | rfl | rfl
    · exact Program.Twin.append he m m' h
    · exact same (Builtin.define_within hQ (fun _ _ => rfl) trivial)
    · exact same (Builtin.evalText_within rfl fun _ => rfl)
    · exact Program.Twin.takeAt he Bytes.finds_index? Builtin.before
        (fun _ _ _ _ => Program.Twin.before) _ m m' h
    · exact same (Builtin.gensym_within rfl fun _ => rfl)
    · exact same (Builtin.includeFile_within trivial rfl (fun _ => rfl) fun _ => rfl)
    · exact Program.Twin.takeAt he Bytes.finds_lastIndex? Builtin.behind
        (fun _ _ _ _ => Program.Twin.behind) _ m m' h
    · exact same (Builtin.loop_within hQ)
    · exact same (Builtin.set_within hQ (fun _ _ => rfl) trivial)
  · exact same (hb.within.imp hQ (fun _ => id) fun _ => False.elim)

end Machine.Rehashed

/-- The buckets do not show. Evaluations on tables that hold the same names with the same values, in
whatever buckets, end alike, failures included: with the same output, files, frames and numbers, and
with tables that again hold the same. What they report is the same up to the order of the records
in each listing of the table. -/
theorem eval_rehashed (n : Nat) (src : Source) (m m' : Machine)
    (h : m.Rehashed Table.SameMap m') :
    (eval .standard n src m).Related (Machine.Rehashed Table.SameMap) Eq
      (eval .standard n src m') := by
  have hkeeps := Machine.Rehashed.simulation.keeps_eval_of
    (fun k => Machine.Rehashed.keeps_standard (k := k)) n
  have hrun := hkeeps src [] m m' (h.imp fun _ _ => Table.SameMap.alike)
  exact hrun.imp fun _ _ h₁ => h₁.imp fun _ _ => Table.Alike.toSameMap

def Machine.bucketed (bits : Nat) : Machine where
  state.dictionary.table :=
    ((Table.empty bits).install (utf8 "a") (utf8 "1,2")).install (utf8 "b") []
  scope := ⟨.ofValues [], []⟩

def Source.listing : Source := ⟨[], utf8 "<~dump~><~append~a~,3~><~first~a~,~>;<~get~a~>"⟩

theorem eval_rehashed_listing :
    (Machine.bucketed 0).Rehashed Table.SameMap (.bucketed 2) ∧
    ∃ m m', m.Rehashed Table.SameMap m' ∧
      eval .standard 3 .listing (.bucketed 0) = .done () m ∧
      eval .standard 3 .listing (.bucketed 2) = .done () m' ∧
      m.out.toBytes = utf8 "1;2,3" ∧
      m.state.diagnostics.written.toBytes = utf8 "b\na~1,2\n" ∧
      m'.state.diagnostics.written.toBytes = utf8 "a~1,2\nb\n" := by
  let ops : List Table.Operation := [.install (utf8 "a") (utf8 "1,2"), .install (utf8 "b") []]
  have h : (Machine.bucketed 0).Rehashed Table.SameMap (.bucketed 2) :=
    { table := Table.SameMap.of_runAll 0 2 0 0 ops ops rfl
      library := rfl, storage := rfl, serial := rfl, ticks := rfl
      accepts := fun _ _ => rfl, accepts' := fun _ _ => rfl, reports := .nil, scope := rfl,
      out := rfl }
  have hrun := eval_rehashed 3 .listing _ _ h
  obtain ⟨m, m', hm, hm', hout, hreports⟩ : ∃ m m',
      eval .standard 3 .listing (.bucketed 0) = .done () m ∧
      eval .standard 3 .listing (.bucketed 2) = .done () m' ∧ m.out.toBytes = utf8 "1;2,3" ∧
      m.state.diagnostics.written.toBytes = utf8 "b\na~1,2\n" ∧
      m'.state.diagnostics.written.toBytes = utf8 "a~1,2\nb\n" := ⟨_, _, rfl, rfl, rfl, rfl, rfl⟩
  rw [hm, hm'] at hrun
  cases hrun with
  | done hrel => exact ⟨h, m, m', hrel, hm, hm', hout, hreports⟩

end TildeText
