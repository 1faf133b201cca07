import TildeText.Proofs.FiniteMap

/-!
What handles stand for. A handle stays with its entry through all that happens to the table, also
after the entry was deleted. Two tables that hold the same finite map, with handles of the one
linked to handles of the other, answer alike and stay so linked, however many buckets each has.
-/

namespace TildeText

theorem Entry.handle_setValue (h : Handle) (v : Bytes) (e : Entry) :
    (e.setValue h v).handle = e.handle := by
  rw [setValue]
  split <;> rfl

def Entry.view (n : Nat) (e : Entry) : Bytes × Bytes := (e.value, e.stored.take n)

def Entry.put_view (n : Nat) (v : Bytes) (p : Bytes × Bytes) : Bytes × Bytes :=
  (v, v.take n ++ p.2.drop v.length)

theorem Entry.view_put (n : Nat) (v : Bytes) (e : Entry) :
    (e.put v).view n = Entry.put_view n v (e.view n) := by
  have htake : (v ++ e.stored.drop v.length).take n =
      v.take n ++ (e.stored.take n).drop v.length := by
    rw [List.take_append, List.drop_take]
  exact congrArg (Prod.mk v) htake

theorem Entry.view_of_le {e : Entry} (h : n ≤ e.value.length) :
    e.view n = (e.value, e.value.take n) := by
  rw [view, stored, List.take_append_of_le_length h]

theorem Chain.find?_eraseP {p q : Entry → Bool} {c : Chain}
    (h : ∀ e ∈ c, p e = true → q e = false) : (c.eraseP p).find? q = c.find? q := by
  induction c with
  | nil => rfl
  | cons e c ih =>
    obtain ⟨he, hc⟩ := List.forall_mem_cons.1 h
    by_cases hp : p e = true
    · rw [List.eraseP_cons_of_pos hp, List.find?_cons_of_neg (by simp [he hp])]
    · rw [List.eraseP_cons_of_neg hp, List.find?_cons, List.find?_cons, ih hc]

namespace Table

variable {t t' : Table} {name : Bytes} {h h' : Handle} {e e' : Entry}

theorem value_eq (t : Table) (h : Handle) (n : Nat) :
    t.value h = ((t.entryAt? h).map (Entry.view n)).elim [] Prod.fst := by
  rw [value]
  cases t.entryAt? h <;> rfl

theorem take_stored (t : Table) (h : Handle) (n : Nat) :
    (t.stored h).take n = ((t.entryAt? h).map (Entry.view n)).elim [] Prod.snd := by
  rw [stored]
  cases t.entryAt? h with
  | none => exact List.take_nil
  | some e => rfl

def Live (t : Table) (h : Handle) : Prop := (t.find? h.name).map Entry.handle = some h

def Numbered (t : Table) : Prop := ∀ name e, t.find? name = some e → e.serial < t.made

theorem name_of_find? (he : t.find? name = some e) : e.name = name := by
  simpa using List.find?_some he

theorem live_of_find? (he : t.find? name = some e) : t.Live e.handle := by
  have hname : e.handle.name = name := name_of_find? he
  rw [Live, hname, he]
  rfl

theorem entryAt?_of_find? (h : t.find? e.name = some e) : t.entryAt? e.handle = some e := by
  -- The handle is that of the first entry with the name, as an entry with the handle has the name.
  have hhandle : (t.chain e.name).find? (·.handle == e.handle) = some e := by
    obtain ⟨-, before, after, hchain, hbefore⟩ := List.find?_eq_some_iff_append.1 h
    refine List.find?_eq_some_iff_append.2 ⟨by simp, before, after, hchain, fun x hx => ?_⟩
    have hname : x.name ≠ e.name := by simpa using hbefore x hx
    have hne : x.handle ≠ e.handle := fun heq => hname (congrArg Handle.name heq)
    simpa using hne
  have hname : e.handle.name = e.name := rfl
  rw [entryAt?, hname, hhandle, Option.some_or]

/-- The table has an entry with the name, value and number of the given one, whatever is stored
behind the value. -/
def Has (t : Table) (e : Entry) : Prop := ∃ spare, t.find? e.name = some { e with spare }

theorem Has.value_eq (h : t.Has e) : t.value e.handle = e.value := by
  obtain ⟨spare, hfind⟩ := h
  have hentry : t.entryAt? e.handle = some { e with spare } :=
    entryAt?_of_find? (e := { e with spare }) hfind
  rw [value, hentry, Option.elim_some]

theorem Has.take_stored (h : t.Has e) (hn : n ≤ e.value.length) :
    (t.stored e.handle).take n = e.value.take n := by
  obtain ⟨spare, hfind⟩ := h
  have hentry : t.entryAt? e.handle = some { e with spare } :=
    entryAt?_of_find? (e := { e with spare }) hfind
  rw [stored, hentry, Option.elim_some, Entry.stored, List.take_append_of_le_length hn]

theorem chain_setChain_eq (t : Table) (name : Bytes) (c : Chain) (n : Bytes) :
    (t.setChain name c).chain n = if (t.bucket name).val = (t.bucket n).val then c else t.chain n :=
  getElem_setChain c (t.bucket n) (t.bucket n).isLt

theorem chain_congr {n : Bytes} (h : (t.bucket name).val = (t.bucket n).val) :
    t.chain name = t.chain n := by
  have hb : t.bucket name = t.bucket n := Fin.ext h
  simp only [chain, hb]

section Link

variable (v : Bytes)

theorem chain_link (n : Bytes) :
    (t.link name v).chain n =
      if (t.bucket name).val = (t.bucket n).val then
        { name, value := v, serial := t.made } :: t.chain n
      else t.chain n := by
  have hlink : (t.link name v).chain n =
      (t.setChain name ({ name, value := v, serial := t.made } :: t.chain name)).chain n := rfl
  rw [hlink, chain_setChain_eq]
  split
  · rename_i hb
    rw [chain_congr hb]
  · rfl

theorem find?_link (n : Bytes) :
    (t.link name v).find? n =
      if n = name then some { name, value := v, serial := t.made } else t.find? n := by
  rw [find?, chain_link]
  by_cases hn : n = name
  · subst hn
    simp
  · have hne : (name == n) = false := by simpa using Ne.symm hn
    rw [if_neg hn]
    split
    · rw [List.find?_cons, hne]
      rfl
    · rfl

theorem entryAt?_link (hh : h.serial < t.made) : (t.link name v).entryAt? h = t.entryAt? h := by
  have hne : (Entry.handle { name, value := v, serial := t.made } == h) = false := by
    rw [beq_eq_false_iff_ne]
    rintro rfl
    exact Nat.lt_irrefl _ hh
  rw [entryAt?, chain_link]
  split
  · rw [List.find?_cons, hne]
    rfl
  · rfl

theorem live_link (hname : t.find? name = none) (hh : h.serial < t.made) :
    (t.link name v).Live h ↔ t.Live h := by
  rw [Live, Live, find?_link]
  split
  · rename_i hn
    rw [hn, hname]
    refine ⟨fun hx => ?_, nofun⟩
    obtain rfl := Option.some.inj hx
    exact absurd hh (Nat.lt_irrefl _)
  · rfl

theorem Numbered.link (ht : t.Numbered) (name : Bytes) : (t.link name v).Numbered := by
  intro n e he
  rw [find?_link] at he
  split at he
  · obtain rfl := Option.some.inj he
    exact Nat.lt_succ_self _
  · exact Nat.lt_succ_of_lt (ht n e he)

end Link

section SetValue

variable (g : Handle) (v : Bytes)

theorem chain_setValue (n : Bytes) :
    (t.setValue g v).chain n =
      if (t.bucket g.name).val = (t.bucket n).val then (t.chain n).map (Entry.setValue g v)
      else t.chain n := by
  have hset : (t.setValue g v).chain n =
      (t.setChain g.name ((t.chain g.name).map (Entry.setValue g v))).chain n := rfl
  rw [hset, chain_setChain_eq]
  split
  · rename_i hb
    rw [chain_congr hb]
  · rfl

theorem find?_setValue (n : Bytes) :
    (t.setValue g v).find? n = (t.find? n).map (Entry.setValue g v) := by
  rw [find?, chain_setValue]
  split
  · rw [List.find?_map]
    congr 2
    funext e
    simp [Entry.name_setValue]
  · rename_i hb
    -- an entry of another bucket is not the one behind the handle
    cases hf : t.find? n with
    | none => exact hf
    | some e =>
      have hne : e.handle ≠ g := by
        rintro rfl
        exact hb (by rw [← name_of_find? hf]; rfl)
      rw [Option.map_some, Entry.setValue_of_ne hne]
      exact hf

theorem entryAt?_setValue (h : Handle) :
    (t.setValue g v).entryAt? h = (t.entryAt? h).map (Entry.setValue g v) := by
  have hfind (l : List Entry) : (l.map (Entry.setValue g v)).find? (·.handle == h) =
      (l.find? (·.handle == h)).map (Entry.setValue g v) := by
    rw [List.find?_map]
    congr 2
    funext e
    simp [Entry.handle_setValue]
  have hretired : (t.setValue g v).retired = t.retired.map (Entry.setValue g v) := rfl
  rw [entryAt?, entryAt?, hretired, hfind, Option.map_or, chain_setValue]
  split
  · rw [hfind]
  · rename_i hb
    congr 1
    cases hf : (t.chain h.name).find? (·.handle == h) with
    | none => rfl
    | some e =>
      have he : e.handle = h := by simpa using List.find?_some hf
      have hne : e.handle ≠ g := by
        rintro rfl
        exact hb (by rw [he])
      rw [Option.map_some, Entry.setValue_of_ne hne]

theorem live_setValue : (t.setValue g v).Live h ↔ t.Live h := by
  rw [Live, Live, find?_setValue, Option.map_map]
  have hcomp : Entry.handle ∘ Entry.setValue g v = Entry.handle :=
    funext (Entry.handle_setValue g v)
  rw [hcomp]

theorem Numbered.setValue (ht : t.Numbered) : (t.setValue g v).Numbered := by
  intro n e he
  rw [find?_setValue] at he
  obtain ⟨e₀, he₀, rfl⟩ := Option.map_eq_some_iff.1 he
  have hserial : (e₀.setValue g v).serial = e₀.serial :=
    congrArg Handle.serial (Entry.handle_setValue g v e₀)
  rw [hserial]
  exact ht n e₀ he₀

theorem view_entry?_setValue (n : Nat) (h : Handle) :
    ((t.setValue g v).entryAt? h).map (Entry.view n) =
      if h = g then ((t.entryAt? h).map (Entry.view n)).map (Entry.put_view n v)
      else (t.entryAt? h).map (Entry.view n) := by
  rw [entryAt?_setValue]
  cases he : t.entryAt? h with
  | none => simp
  | some e =>
    have hhandle : e.handle = h := by
      rw [entryAt?, Option.or_eq_some_iff] at he
      rcases he with he | ⟨-, he⟩ <;> simpa using List.find?_some he
    by_cases hg : h = g
    · rw [if_pos hg, Option.map_some, Entry.setValue_of_handle (hhandle.trans hg), Option.map_some,
        Option.map_some, Option.map_some, Entry.view_put]
    · rw [if_neg hg, Option.map_some, Entry.setValue_of_ne (hhandle ▸ hg)]

end SetValue

section Delete

variable {s : Finmap fun _ : Bytes => Bytes} {names : List Bytes}

theorem chain_delete (he : t.find? name = some e) (n : Bytes) :
    (t.delete name).2.chain n = if (t.bucket name).val = (t.bucket n).val then
      (t.chain n).eraseP (·.name == name) else t.chain n := by
  have hdelete : (t.delete name).2.chain n =
      (t.setChain name ((t.chain name).eraseP (·.name == name))).chain n := by
    rw [delete, he]
    rfl
  rw [hdelete, chain_setChain_eq]
  split
  · rename_i hb
    rw [chain_congr hb]
  · rfl

theorem find?_delete (ht : t.Holds s names) (n : Bytes) :
    (t.delete name).2.find? n = if n = name then none else t.find? n := by
  by_cases hn : n = name
  · have hvalue := (ht.delete name).find?_value n
    rw [hn, Finmap.lookup_erase, Option.map_eq_none_iff] at hvalue
    rw [if_pos hn, hn, hvalue]
  · rw [if_neg hn]
    cases hf : t.find? name with
    | none => rw [delete, hf]
    | some e =>
      have hother : ∀ e ∈ t.chain n, (e.name == name) = true → (e.name == n) = false := by
        intro e _ he
        simpa using fun h => hn (h.symm.trans (by simpa using he))
      rw [find?, chain_delete hf]
      split
      · exact Chain.find?_eraseP hother
      · rfl

theorem live_delete (ht : t.Holds s names) :
    (t.delete name).2.Live h ↔ h.name ≠ name ∧ t.Live h := by
  rw [Live, Live, find?_delete ht]
  split
  · rename_i hn
    simp [hn]
  · rename_i hn
    simp [hn]

theorem Numbered.delete (hn : t.Numbered) (ht : t.Holds s names) : (t.delete name).2.Numbered := by
  intro n e he
  have hmade : (t.delete name).2.made = t.made := by
    rw [Table.delete]
    split <;> rfl
  rw [find?_delete ht] at he
  split at he
  · cases he
  · rw [hmade]
    exact hn n e he

theorem entryAt?_delete (ht : t.Holds s names) : (t.delete name).2.entryAt? h = t.entryAt? h := by
  cases hf : t.find? name with
  | none => rw [delete, hf]
  | some e =>
    obtain ⟨rfl, he, -⟩ := ht.of_find? hf
    have hretired : (t.delete e.name).2.retired = e :: t.retired := by rw [delete, hf]
    rw [entryAt?, entryAt?, hretired]
    by_cases hh : e.handle = h
    · subst hh
      have hgone : ((t.delete e.name).2.chain e.name).find? (·.handle == e.handle) = none := by
        have hnone : (t.delete e.name).2.find? e.name = none := by
          rw [find?_delete ht, if_pos rfl]
        refine List.find?_eq_none.2 fun e' he' hhandle => List.find?_eq_none.1 hnone e' he' ?_
        have hhandle : e'.handle = e.handle := by simpa using hhandle
        have hname : e'.name = e.name := congrArg Handle.name hhandle
        simpa using hname
      have hname : e.handle.name = e.name := rfl
      rw [hname, hgone, ht.find?_handle he]
      simp
    · have hne : (e.handle == h) = false := by simpa using hh
      rw [List.find?_cons, hne, chain_delete hf]
      split
      · rename_i hb
        rw [Chain.find?_eraseP]
        intro e' he' hname
        have hname : e'.name = e.name := by simpa using hname
        rw [← chain_congr hb] at he'
        rw [ht.eq_of_name he' he hname]
        exact hne
      · rfl

end Delete

theorem numbered_empty (bits made : Nat) : { empty bits with made }.Numbered := by
  intro name e he
  obtain ⟨-, -, hvalue⟩ := (holds_empty bits made).of_find? he
  rw [Finmap.lookup_empty] at hvalue
  cases hvalue

theorem Numbered.step {s : Finmap fun _ : Bytes => Bytes} {names : List Bytes} (hn : t.Numbered)
    (ht : t.Holds s names) (op : Operation) : (op.onTable t).2.Numbered := by
  cases op with
  | install name v =>
    simp only [Operation.onTable, Table.install]
    split
    · exact hn.setValue _ v
    · exact hn.link v name
  | change name f =>
    simp only [Operation.onTable, Table.obtain]
    split
    · exact hn.setValue _ _
    · exact (hn.link [] name).setValue _ _
  | delete name => exact hn.delete ht
  | lookup name => exact hn

theorem Numbered.run {s : Finmap fun _ : Bytes => Bytes} {names : List Bytes} (hn : t.Numbered)
    (ht : t.Holds s names) (ops : List Operation) :
    (runAll (fun t op => op.onTable t) t ops).2.Numbered := by
  induction ops generalizing t s names with
  | nil => exact hn
  | cons op ops ih => exact ih (hn.step ht op) (ht.step op).2

namespace Holds

variable {s : Finmap fun _ : Bytes => Bytes} {names : List Bytes}

theorem find?_of_mem (ht : t.Holds s names) (he : e ∈ t.chain e.name) :
    t.find? e.name = some e := by
  cases hf : t.find? e.name with
  | none => simpa using List.find?_eq_none.1 hf e he
  | some e' =>
    have he' := List.mem_of_find?_eq_some hf
    rw [ht.eq_of_name he' he (name_of_find? hf)]

theorem setValue_retired (ht : t.Holds s names) (hh : ¬ t.Live h) (v : Bytes) :
    (t.setValue h v).Holds s names := by
  have hsame : (t.chain h.name).map (Entry.setValue h v) = t.chain h.name := by
    refine (List.map_congr_left fun e he => ?_).trans (List.map_id _)
    refine Entry.setValue_of_ne (fun hhandle => hh ?_) v
    subst hhandle
    exact live_of_find? (ht.find?_of_mem he)
  have hset := ht.setChain h.name ((t.chain h.name).map (Entry.setValue h v)) s names ?_
    (fun _ _ => rfl) ?_ (fun _ _ => rfl) ht.nodup ht.present
  · exact ⟨hset.chains, hset.values, hset.nodup, hset.present⟩
  · rw [hsame]
    exact ht.chain_names h.name
  · rw [hsame]
    exact ht.values _ (t.bucket h.name).isLt

end Holds

/-- Handles of two tables, and how many of the bytes stored behind them are to be the same. -/
structure Link where
  left : Handle
  right : Handle
  shared : Nat := 0

/-- Handles that stand for entries with the same name and value. Either both entries are in the
tables or neither is. -/
structure Linked (t t' : Table) (l : Link) : Prop where
  name : l.left.name = l.right.name
  live : t.Live l.left ↔ t'.Live l.right
  view : (t.entryAt? l.left).map (Entry.view l.shared) =
    (t'.entryAt? l.right).map (Entry.view l.shared)
  serial : l.left.serial < t.made
  serial' : l.right.serial < t'.made

/-- Tables that hold the same finite map. -/
structure SameMap (t t' : Table) : Prop where
  holds : ∃ s names names', t.Holds s names ∧ t'.Holds s names'
  numbered : t.Numbered
  numbered' : t'.Numbered

structure Alike (links : List Link) (t t' : Table) : Prop extends SameMap t t' where
  linked : ∀ p ∈ links, Linked t t' p
  oneToOne : ∀ p ∈ links, ∀ q ∈ links, p.left = q.left ↔ p.right = q.right

theorem SameMap.of_runAll (bits bits' made made' : Nat) (ops ops' : List Operation)
    (h : (runAll (fun s op => op.onMap s) ∅ ops).2 = (runAll (fun s op => op.onMap s) ∅ ops').2) :
    SameMap (runAll (fun t op => op.onTable t) { empty bits with made } ops).2
      (runAll (fun t op => op.onTable t) { empty bits' with made := made' } ops').2 where
  holds := by
    obtain ⟨-, hs⟩ := (holds_empty bits made).run ops
    obtain ⟨-, hs'⟩ := (holds_empty bits' made').run ops'
    exact ⟨_, _, _, hs, h ▸ hs'⟩
  numbered := (numbered_empty bits made).run (holds_empty bits made) ops
  numbered' := (numbered_empty bits' made').run (holds_empty bits' made') ops'

theorem SameMap.alike (ht : SameMap t t') : Alike [] t t' := ⟨ht, by simp, by simp⟩

namespace Alike

variable {links : List Link}

theorem find?_value (ht : Alike links t t') (name : Bytes) :
    (t.find? name).map Entry.value = (t'.find? name).map Entry.value := by
  obtain ⟨s, names, names', hs, hs'⟩ := ht.holds
  rw [hs.find?_value, hs'.find?_value]

theorem find? (ht : Alike links t t') (name : Bytes) :
    (t.find? name = none ∧ t'.find? name = none) ∨
    ∃ e e', t.find? name = some e ∧ t'.find? name = some e' ∧ e.value = e'.value := by
  have hvalue := ht.find?_value name
  cases hf : t.find? name with
  | none =>
    rw [hf] at hvalue
    exact .inl ⟨rfl, Option.map_eq_none_iff.1 hvalue.symm⟩
  | some e =>
    rw [hf] at hvalue
    obtain ⟨e', he', hv⟩ := Option.map_eq_some_iff.1 hvalue.symm
    exact .inr ⟨e, e', rfl, he', hv.symm⟩

theorem unlink (ht : Alike (p :: links) t t') : Alike links t t' where
  toSameMap := ht.toSameMap
  linked q hq := ht.linked q (List.mem_cons_of_mem p hq)
  oneToOne q hq r hr := ht.oneToOne q (List.mem_cons_of_mem p hq) r (List.mem_cons_of_mem p hr)

theorem linked_iff (ht : Alike links t t') (he : t.find? name = some e)
    (he' : t'.find? name = some e') : ∀ p ∈ links, p.left = e.handle ↔ p.right = e'.handle := by
  intro p hp
  obtain ⟨hname, hlive, -, -, -⟩ := ht.linked p hp
  constructor
  · intro h
    have hl : t'.Live p.right := hlive.1 (h ▸ live_of_find? he)
    have hn : p.right.name = name := hname ▸ h ▸ name_of_find? he
    rw [Live, hn, he'] at hl
    exact (Option.some.inj hl).symm
  · intro h
    have hl : t.Live p.left := hlive.2 (h ▸ live_of_find? he')
    have hn : p.left.name = name := hname ▸ h ▸ name_of_find? he'
    rw [Live, hn, he] at hl
    exact (Option.some.inj hl).symm

theorem link_found (ht : Alike links t t') (he : t.find? name = some e)
    (he' : t'.find? name = some e') : Alike (⟨e.handle, e'.handle, 0⟩ :: links) t t' := by
  obtain ⟨s, names, names', hs, hs'⟩ := ht.holds
  have hiff := ht.linked_iff he he'
  refine ⟨ht.toSameMap, List.forall_mem_cons.2 ⟨?_, ht.linked⟩, ?_⟩
  · obtain ⟨hn, hmem, hv⟩ := hs.of_find? he
    obtain ⟨hn', hmem', hv'⟩ := hs'.of_find? he'
    refine ⟨hn.trans hn'.symm, iff_of_true (live_of_find? he) (live_of_find? he'), ?_,
      ht.numbered _ _ he, ht.numbered' _ _ he'⟩
    have hentry : t.entryAt? e.handle = some e := entryAt?_of_find? (hs.find?_of_mem hmem)
    have hentry' : t'.entryAt? e'.handle = some e' := entryAt?_of_find? (hs'.find?_of_mem hmem')
    have hvalue : e.value = e'.value := Option.some.inj (by rw [← hv, ← hv'])
    simp only [hentry, hentry', Option.map_some, Entry.view, hvalue, List.take_zero]
  · simp only [List.forall_mem_cons]
    refine ⟨⟨trivial, fun q hq => ?_⟩, fun p hp => ⟨hiff p hp, ht.oneToOne p hp⟩⟩
    rw [eq_comm, hiff q hq, eq_comm]

theorem value (ht : Alike links t t') {l : Link} (hl : l ∈ links) :
    t.value l.left = t'.value l.right := by
  rw [value_eq t _ l.shared, value_eq t' _ l.shared, (ht.linked l hl).view]

theorem take_stored (ht : Alike links t t') {l : Link} (hl : l ∈ links) :
    (t.stored l.left).take l.shared = (t'.stored l.right).take l.shared := by
  rw [Table.take_stored, Table.take_stored, (ht.linked l hl).view]

theorem share (ht : Alike links t t') {l : Link} (hl : l ∈ links) {n : Nat}
    (hn : n ≤ (t.value l.left).length) : Alike ({ l with shared := n } :: links) t t' := by
  obtain ⟨hname, hlive, hview, hserial, hserial'⟩ := ht.linked l hl
  refine ⟨ht.toSameMap, List.forall_mem_cons.2 ⟨⟨hname, hlive, ?_, hserial, hserial'⟩, ht.linked⟩,
    ?_⟩
  · rw [Table.value] at hn
    cases he : t.entryAt? l.left with
    | none =>
      rw [he] at hview
      rw [Option.map_eq_none_iff.1 hview.symm]
    | some e =>
      rw [he] at hview hn
      obtain ⟨e', he', hee'⟩ := Option.map_eq_some_iff.1 hview.symm
      have hvalue : e'.value = e.value := congrArg Prod.fst hee'
      have hn' : n ≤ e'.value.length := hvalue ▸ hn
      rw [he', Option.map_some, Option.map_some, Entry.view_of_le hn, Entry.view_of_le hn', hvalue]
  · simp only [List.forall_mem_cons]
    exact ⟨⟨trivial, fun q hq => ht.oneToOne l hl q hq⟩,
      fun p hp => ⟨ht.oneToOne p hp l hl, ht.oneToOne p hp⟩⟩

theorem link (ht : Alike links t t') (hname : t.find? name = none) (v : Bytes) :
    Alike links (t.link name v) (t'.link name v) := by
  obtain ⟨s, names, names', hs, hs'⟩ := ht.holds
  have hname' : t'.find? name = none := by
    have hvalue := ht.find?_value name
    rwa [hname, Option.map_none, eq_comm, Option.map_eq_none_iff] at hvalue
  have habsent := hs.not_mem_of_find? hname
  refine ⟨⟨⟨_, _, _, hs.link habsent v, hs'.link habsent v⟩, ht.numbered.link v name,
    ht.numbered'.link v name⟩, fun p hp => ?_, ht.oneToOne⟩
  obtain ⟨hn, hlive, hview, hserial, hserial'⟩ := ht.linked p hp
  refine ⟨hn, ?_, ?_, Nat.lt_succ_of_lt hserial, Nat.lt_succ_of_lt hserial'⟩
  · rw [live_link v hname hserial, live_link v hname' hserial', hlive]
  · rw [entryAt?_link v hserial, entryAt?_link v hserial', hview]

theorem setValue (ht : Alike links t t') {g g' : Handle} (hname : g.name = g'.name)
    (hlive : t.Live g ↔ t'.Live g') (hiff : ∀ p ∈ links, p.left = g ↔ p.right = g') (v : Bytes) :
    Alike links (t.setValue g v) (t'.setValue g' v) := by
  obtain ⟨s, names, names', hs, hs'⟩ := ht.holds
  refine ⟨⟨?_, ht.numbered.setValue g v, ht.numbered'.setValue g' v⟩, fun p hp => ?_,
    ht.oneToOne⟩
  · by_cases hl : t.Live g
    · obtain ⟨e, he, rfl⟩ := Option.map_eq_some_iff.1 hl
      obtain ⟨e', he', rfl⟩ := Option.map_eq_some_iff.1 (hlive.1 hl)
      have hset := hs.setValue (hs.of_find? he).2.1 v
      have hset' := hs'.setValue (hs'.of_find? he').2.1 v
      have hn : e.name = e'.name := hname
      rw [← hn] at hset'
      exact ⟨_, _, _, hset, hset'⟩
    · exact ⟨s, names, names', hs.setValue_retired hl v,
        hs'.setValue_retired (fun hl' => hl (hlive.2 hl')) v⟩
  · obtain ⟨hn, hl, hview, hserial, hserial'⟩ := ht.linked p hp
    refine ⟨hn, ?_, ?_, hserial, hserial'⟩
    · rw [live_setValue, live_setValue, hl]
    · rw [view_entry?_setValue, view_entry?_setValue]
      by_cases hg : p.left = g
      · rw [if_pos hg, if_pos ((hiff p hp).1 hg), hview]
      · rw [if_neg hg, if_neg fun hg' => hg ((hiff p hp).2 hg'), hview]

theorem delete (ht : Alike links t t') (name : Bytes) :
    Alike links (t.delete name).2 (t'.delete name).2 := by
  obtain ⟨s, names, names', hs, hs'⟩ := ht.holds
  have hmade (t : Table) : (t.delete name).2.made = t.made := by
    rw [Table.delete]
    split <;> rfl
  refine ⟨⟨⟨_, _, _, hs.delete name, hs'.delete name⟩, ht.numbered.delete hs,
    ht.numbered'.delete hs'⟩, fun p hp => ?_, ht.oneToOne⟩
  obtain ⟨hn, hl, hview, hserial, hserial'⟩ := ht.linked p hp
  refine ⟨hn, ?_, ?_, hmade t ▸ hserial, hmade t' ▸ hserial'⟩
  · rw [live_delete hs, live_delete hs', hn, hl]
  · rw [entryAt?_delete hs, entryAt?_delete hs', hview]

theorem install (ht : Alike links t t') (name v : Bytes) :
    Alike links (t.install name v) (t'.install name v) := by
  rw [Table.install, Table.install]
  rcases ht.find? name with ⟨hf, hf'⟩ | ⟨e, e', hf, hf', -⟩
  · rw [hf, hf']
    exact ht.link hf v
  · rw [hf, hf']
    have hname : e.handle.name = e'.handle.name := (name_of_find? hf).trans (name_of_find? hf').symm
    exact ht.setValue hname (iff_of_true (live_of_find? hf) (live_of_find? hf'))
      (ht.linked_iff hf hf') v

theorem obtain (ht : Alike links t t') (name : Bytes) :
    Alike (⟨(t.obtain name).1, (t'.obtain name).1, 0⟩ :: links) (t.obtain name).2
      (t'.obtain name).2 := by
  rw [Table.obtain, Table.obtain]
  rcases ht.find? name with ⟨hf, hf'⟩ | ⟨e, e', hf, hf', -⟩
  · rw [hf, hf']
    have hfound (t : Table) : (t.link name []).find? name =
        some { name, value := [], serial := t.made } := by
      rw [find?_link, if_pos rfl]
    exact (ht.link hf []).link_found (hfound t) (hfound t')
  · rw [hf, hf']
    exact ht.link_found hf hf'

theorem setLinked (ht : Alike links t t') {l : Link} (hl : l ∈ links) (v : Bytes) :
    Alike links (t.setValue l.left v) (t'.setValue l.right v) := by
  obtain ⟨hname, hlive, -, -, -⟩ := ht.linked l hl
  exact ht.setValue hname hlive (fun q hq => ht.oneToOne q hq l hl) v

end Alike

theorem Holds.mem_pairs {s : Finmap fun _ : Bytes => Bytes} {names : List Bytes}
    (ht : t.Holds s names) (n v : Bytes) :
    (n, v) ∈ t.entries.map (fun e => (e.name, e.value)) ↔ s.lookup n = some v := by
  rw [List.mem_map]
  constructor
  · rintro ⟨e, he, hpair⟩
    obtain ⟨rfl, rfl⟩ := Prod.mk.inj hpair
    exact ht.shows.values e he
  · intro hv
    obtain ⟨e, he, rfl⟩ := List.mem_map.1 ((ht.mem_entries n).2 (Finmap.mem_of_lookup_eq_some hv))
    have hvalue := ht.shows.values e he
    exact ⟨e, he, by rw [Option.some.inj (hvalue.symm.trans hv)]⟩

theorem SameMap.lines_perm (ht : SameMap t t') :
    (t.entries.map Entry.line).Perm (t'.entries.map Entry.line) := by
  obtain ⟨s, names, names', hs, hs'⟩ := ht.holds
  let pair (e : Entry) : Bytes × Bytes := (e.name, e.value)
  have hnodup {t : Table} {names : List Bytes} (ht : t.Holds s names) :
      (t.entries.map pair).Nodup := by
    refine List.Nodup.of_map Prod.fst ?_
    rw [List.map_map]
    exact ht.nodup_entries
  have hpairs : (t.entries.map pair).Perm (t'.entries.map pair) := by
    refine (List.perm_ext_iff_of_nodup (hnodup hs) (hnodup hs')).2 fun ⟨n, v⟩ => ?_
    rw [hs.mem_pairs, hs'.mem_pairs]
  have hlines := hpairs.map fun p => p.1 ++ (if p.2.isEmpty then [] else 0x7e :: p.2) ++ [0x0a]
  rwa [List.map_map, List.map_map] at hlines

end Table

end TildeText
