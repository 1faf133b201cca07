import Mathlib.Data.Finmap
import TildeText.Dictionary

namespace TildeText

namespace Entry

theorem setValue_of_handle {e : Entry} {h : Handle} (he : e.handle = h) (v : Bytes) :
    e.setValue h v = e.put v :=
  if_pos he

theorem setValue_of_ne {e : Entry} {h : Handle} (he : e.handle ≠ h) (v : Bytes) :
    e.setValue h v = e :=
  if_neg he

theorem name_setValue (h : Handle) (v : Bytes) (e : Entry) : (e.setValue h v).name = e.name := by
  rw [setValue]
  split <;> rfl

end Entry

namespace Table

/-- What can be asked of a table. A change is to the value that the entry of a name has, or would
have if it were made anew. -/
inductive Operation
  | install (name value : Bytes)
  | change (name : Bytes) (f : Bytes → Bytes)
  | delete (name : Bytes)
  | lookup (name : Bytes)

inductive Answer
  | installed
  | obtained (value : Bytes)
  | deleted (present : Bool)
  | found (value : Option Bytes)
  deriving DecidableEq

namespace Operation

def onTable (t : Table) : Operation → Answer × Table
  | .install name value => (.installed, t.install name value)
  | .change name f =>
    let (h, t) := t.obtain name
    (.obtained (t.value h), t.setValue h (f (t.value h)))
  | .delete name =>
    let (present, t) := t.delete name
    (.deleted present, t)
  | .lookup name => (.found ((t.find? name).map Entry.value), t)

def onMap (s : Finmap fun _ : Bytes => Bytes) :
    Operation → Answer × Finmap fun _ : Bytes => Bytes
  | .install name value => (.installed, s.insert name value)
  | .change name f =>
    let value := (s.lookup name).getD []
    (.obtained value, s.insert name (f value))
  | .delete name => (.deleted (s.lookup name).isSome, s.erase name)
  | .lookup name => (.found (s.lookup name), s)

def create (names : List Bytes) (name : Bytes) : List Bytes :=
  if name ∈ names then names else name :: names

/-- The names that are present, with the one created latest first. -/
def onNames (names : List Bytes) : Operation → List Bytes
  | .install name _ | .change name _ => create names name
  | .delete name => names.erase name
  | .lookup _ => names

end Operation

def runAll (step : σ → Operation → Answer × σ) : σ → List Operation → List Answer × σ
  | s, [] => ([], s)
  | s, op :: ops =>
    let (answer, s) := step s op
    let (answers, s) := runAll step s ops
    (answer :: answers, s)

variable {t : Table} {name : Bytes}

theorem getElem_setChain (c : Chain) (i : Nat) (hi : i < Nat.pow 2 t.bits) :
    (t.setChain name c).chains[i] = if (t.bucket name).val = i then c else t.chains[i] := by
  simp only [setChain]
  exact Vector.getElem_set _ _

theorem chain_setChain (c : Chain) : (t.setChain name c).chain name = c :=
  (getElem_setChain c (t.bucket name) (t.bucket name).isLt).trans (if_pos rfl)

theorem fst_delete (t : Table) (name : Bytes) : (t.delete name).1 = (t.find? name).isSome := by
  rw [delete]
  cases t.find? name <;> rfl

structure Holds (t : Table) (s : Finmap fun _ : Bytes => Bytes) (names : List Bytes) : Prop where
  chains : ∀ i (hi : i < Nat.pow 2 t.bits),
    t.chains[i].map Entry.name = names.filter fun n => (t.bucket n).val = i
  values : ∀ i (hi : i < Nat.pow 2 t.bits), ∀ e ∈ t.chains[i], s.lookup e.name = some e.value
  nodup : names.Nodup
  present : ∀ n, n ∈ names ↔ n ∈ s

namespace Holds

variable {s : Finmap fun _ : Bytes => Bytes} {names : List Bytes} {e : Entry}

theorem chain_names (h : t.Holds s names) (name : Bytes) :
    (t.chain name).map Entry.name =
      names.filter fun n => (t.bucket n).val = (t.bucket name).val :=
  h.chains _ (t.bucket name).isLt

theorem bucket_of_mem (h : t.Holds s names) {i : Nat} (hi : i < Nat.pow 2 t.bits)
    (he : e ∈ t.chains[i]) : e.name ∈ names ∧ (t.bucket e.name).val = i := by
  have hname : e.name ∈ t.chains[i].map Entry.name := List.mem_map_of_mem he
  rw [h.chains i hi] at hname
  simpa using hname

theorem eq_of_name (h : t.Holds s names) {e' : Entry} (he : e ∈ t.chain name)
    (he' : e' ∈ t.chain name) (hname : e.name = e'.name) : e = e' := by
  have hnodup : ((t.chain name).map Entry.name).Nodup := by
    rw [h.chain_names]
    exact h.nodup.filter _
  exact List.inj_on_of_nodup_map hnodup he he' hname

theorem of_find? (h : t.Holds s names) (hf : t.find? name = some e) :
    e.name = name ∧ e ∈ t.chain e.name ∧ s.lookup name = some e.value := by
  have hname : e.name = name := by simpa using List.find?_some hf
  have hmem := List.mem_of_find?_eq_some hf
  have hvalue := h.values _ (t.bucket name).isLt e hmem
  subst hname
  exact ⟨rfl, hmem, hvalue⟩

theorem not_mem_of_find? (h : t.Holds s names) (hf : t.find? name = none) : name ∉ s := by
  intro hs
  have hmem : name ∈ (t.chain name).map Entry.name := by
    rw [h.chain_names]
    simpa using (h.present name).2 hs
  obtain ⟨e, he, hname⟩ := List.mem_map.1 hmem
  have hne := List.find?_eq_none.1 hf e he
  simp [hname] at hne

theorem find?_value (h : t.Holds s names) (name : Bytes) :
    (t.find? name).map Entry.value = s.lookup name := by
  cases hf : t.find? name with
  | none => exact (Finmap.lookup_eq_none.2 (h.not_mem_of_find? hf)).symm
  | some e => exact (h.of_find? hf).2.2.symm

theorem find?_handle (h : t.Holds s names) (he : e ∈ t.chain e.name) :
    (t.chain e.name).find? (·.handle == e.handle) = some e := by
  cases hf : (t.chain e.name).find? (·.handle == e.handle) with
  | none => simpa using List.find?_eq_none.1 hf e he
  | some e' =>
    have hhandle : e'.handle = e.handle := by simpa using List.find?_some hf
    have hname : e'.name = e.name := congrArg Handle.name hhandle
    rw [h.eq_of_name (List.mem_of_find?_eq_some hf) he hname]

theorem value_handle (h : t.Holds s names) (he : e ∈ t.chain e.name) :
    t.value e.handle = e.value := by
  have hname : e.handle.name = e.name := rfl
  rw [value, entryAt?, hname, h.find?_handle he, Option.some_or, Option.elim_some]

theorem setChain (h : t.Holds s names) (name : Bytes) (c : Chain)
    (s' : Finmap fun _ : Bytes => Bytes) (names' : List Bytes)
    (hchain : c.map Entry.name = names'.filter fun n => (t.bucket n).val = (t.bucket name).val)
    (hother : ∀ i, (t.bucket name).val ≠ i →
      names'.filter (fun n => (t.bucket n).val = i) = names.filter fun n => (t.bucket n).val = i)
    (hvalues : ∀ e ∈ c, s'.lookup e.name = some e.value)
    (hlookup : ∀ n, n ≠ name → s'.lookup n = s.lookup n) (hnodup : names'.Nodup)
    (hpresent : ∀ n, n ∈ names' ↔ n ∈ s') : (t.setChain name c).Holds s' names' := by
  refine ⟨fun i hi => ?_, fun i hi e he => ?_, hnodup, hpresent⟩
  · rw [getElem_setChain (t := t) c i hi]
    split
    · rename_i hb
      subst hb
      exact hchain
    · rename_i hb
      exact (h.chains i hi).trans (hother i hb).symm
  · rw [getElem_setChain (t := t) c i hi] at he
    split at he
    · exact hvalues e he
    · rename_i hb
      have hne : e.name ≠ name := by
        rintro rfl
        exact hb (h.bucket_of_mem hi he).2
      exact (hlookup e.name hne).trans (h.values i hi e he)

theorem setValue (h : t.Holds s names) (he : e ∈ t.chain e.name) (v : Bytes) :
    (t.setValue e.handle v).Holds (s.insert e.name v) names := by
  have hs : e.name ∈ s := (h.present _).1 (h.bucket_of_mem (t.bucket e.name).isLt he).1
  have hnames : ((t.chain e.name).map (Entry.setValue e.handle v)).map Entry.name =
      (t.chain e.name).map Entry.name := by
    rw [List.map_map]
    exact List.map_congr_left fun e' _ => Entry.name_setValue e.handle v e'
  have hset := h.setChain e.name ((t.chain e.name).map (Entry.setValue e.handle v))
    (s.insert e.name v) names (hnames.trans (h.chain_names e.name)) (fun _ _ => rfl) ?_
    (fun n hn => Finmap.lookup_insert_of_ne s hn) h.nodup fun n => ?_
  · exact ⟨hset.chains, hset.values, hset.nodup, hset.present⟩
  · intro e' he'
    obtain ⟨e₀, he₀, rfl⟩ := List.mem_map.1 he'
    by_cases hhandle : e₀.handle = e.handle
    · have hname : e₀.name = e.name := congrArg Handle.name hhandle
      rw [Entry.setValue_of_handle hhandle]
      exact hname ▸ Finmap.lookup_insert s
    · have hne : e₀.name ≠ e.name := fun hname => hhandle (by rw [h.eq_of_name he₀ he hname])
      rw [Entry.setValue_of_ne hhandle, Finmap.lookup_insert_of_ne s hne]
      exact h.values _ (t.bucket e.name).isLt e₀ he₀
  · rw [h.present, Finmap.mem_insert]
    exact ⟨.inr, fun hn => hn.elim (fun hn => hn ▸ hs) id⟩

theorem link (h : t.Holds s names) (hname : name ∉ s) (v : Bytes) :
    (t.link name v).Holds (s.insert name v) (name :: names) := by
  have hset := h.setChain name ({ name, value := v, serial := t.made } :: t.chain name)
    (s.insert name v)
    (name :: names) ?_ ?_ ?_ (fun n hn => Finmap.lookup_insert_of_ne s hn)
    (List.nodup_cons.2 ⟨fun hn => hname ((h.present name).1 hn), h.nodup⟩) ?_
  · exact ⟨hset.chains, hset.values, hset.nodup, hset.present⟩
  · simp [h.chain_names]
  · intro i hi
    simp [hi]
  · refine List.forall_mem_cons.2 ⟨Finmap.lookup_insert s, fun e he => ?_⟩
    have hne : e.name ≠ name := by
      rintro rfl
      exact hname ((h.present _).1 (h.bucket_of_mem (t.bucket e.name).isLt he).1)
    rw [Finmap.lookup_insert_of_ne s hne]
    exact h.values _ (t.bucket name).isLt e he
  · intro n
    rw [List.mem_cons, Finmap.mem_insert, h.present]

theorem delete (h : t.Holds s names) (name : Bytes) :
    (t.delete name).2.Holds (s.erase name) (names.erase name) := by
  rw [Table.delete]
  cases hf : t.find? name with
  | none =>
    have hname := h.not_mem_of_find? hf
    have hn : name ∉ names := fun hn => hname ((h.present name).1 hn)
    rw [List.erase_of_not_mem hn]
    refine ⟨h.chains, fun i hi e he => ?_, h.nodup, fun n => ?_⟩
    · have hne : e.name ≠ name := by
        rintro rfl
        exact hn (h.bucket_of_mem hi he).1
      rw [Finmap.lookup_erase_ne hne]
      exact h.values i hi e he
    · rw [Finmap.mem_erase, h.present]
      exact ⟨fun hs => ⟨fun hne => hname (hne ▸ hs), hs⟩, And.right⟩
  | some e =>
    have hchain : ((t.chain name).eraseP (·.name == name)).map Entry.name =
        (names.erase name).filter fun n => (t.bucket n).val = (t.bucket name).val := by
      have hnames : ((t.chain name).eraseP (·.name == name)).map Entry.name =
          ((t.chain name).map Entry.name).erase name := by
        rw [List.erase_eq_eraseP', List.eraseP_map]
        rfl
      rw [hnames, h.chain_names, (h.nodup.filter _).erase_eq_filter, h.nodup.erase_eq_filter,
        List.filter_comm]
    have hset := h.setChain name _ (s.erase name) (names.erase name) hchain (fun i hi => ?_)
      (fun e' he' => ?_) (fun n hn => Finmap.lookup_erase_ne hn) (h.nodup.erase name) fun n => ?_
    · exact ⟨hset.chains, hset.values, hset.nodup, hset.present⟩
    · rw [h.nodup.erase_eq_filter, List.filter_filter]
      refine List.filter_congr fun n _ => ?_
      by_cases hn : n = name
      · simp [hn, hi]
      · simp [hn]
    · have hmem : e'.name ∈ names.erase name := by
        have hname := List.mem_map_of_mem (f := Entry.name) he'
        rw [hchain] at hname
        exact List.mem_of_mem_filter hname
      rw [Finmap.lookup_erase_ne (h.nodup.mem_erase_iff.1 hmem).1]
      exact h.values _ (t.bucket name).isLt e' (List.mem_of_mem_eraseP he')
    · rw [h.nodup.mem_erase_iff, Finmap.mem_erase, h.present]

theorem create_of_mem (h : t.Holds s names) (hname : name ∈ s) :
    Operation.create names name = names :=
  if_pos ((h.present name).2 hname)

theorem create_of_not_mem (h : t.Holds s names) (hname : name ∉ s) :
    Operation.create names name = name :: names :=
  if_neg fun hn => hname ((h.present name).1 hn)

theorem install (h : t.Holds s names) (name v : Bytes) :
    (t.install name v).Holds (s.insert name v) (Operation.create names name) := by
  rw [Table.install]
  cases hf : t.find? name with
  | none =>
    have hname := h.not_mem_of_find? hf
    rw [h.create_of_not_mem hname]
    exact h.link hname v
  | some e =>
    obtain ⟨rfl, he, hvalue⟩ := h.of_find? hf
    rw [h.create_of_mem (Finmap.mem_of_lookup_eq_some hvalue)]
    exact h.setValue he v

theorem obtain (h : t.Holds s names) (name : Bytes) :
    ∃ e t' s', t.obtain name = (e.handle, t') ∧ e.name = name ∧ e ∈ t'.chain e.name ∧
      e.value = (s.lookup name).getD [] ∧ t'.Holds s' (Operation.create names name) ∧
      ∀ v, s'.insert name v = s.insert name v := by
  rw [Table.obtain]
  cases hf : t.find? name with
  | none =>
    have hname := h.not_mem_of_find? hf
    refine ⟨{ name, value := [], serial := t.made }, t.link name [], s.insert name [], rfl, rfl, ?_,
      ?_, ?_, fun v => ?_⟩
    · have hchain : (t.link name []).chain name =
          { name, value := [], serial := t.made } :: t.chain name := chain_setChain _
      exact hchain ▸ List.mem_cons_self
    · rw [Finmap.lookup_eq_none.2 hname, Option.getD_none]
    · rw [h.create_of_not_mem hname]
      exact h.link hname []
    · exact Finmap.insert_insert s
  | some e =>
    obtain ⟨rfl, he, hvalue⟩ := h.of_find? hf
    refine ⟨e, t, s, rfl, rfl, he, ?_, ?_, fun _ => rfl⟩
    · rw [hvalue, Option.getD_some]
    · rw [h.create_of_mem (Finmap.mem_of_lookup_eq_some hvalue)]
      exact h

theorem step (h : t.Holds s names) (op : Operation) :
    (op.onTable t).1 = (op.onMap s).1 ∧
      (op.onTable t).2.Holds (op.onMap s).2 (op.onNames names) := by
  cases op with
  | install name v => exact ⟨rfl, h.install name v⟩
  | change name f =>
    obtain ⟨e, t', s', ht, rfl, he, hvalue, h', hinsert⟩ := h.obtain name
    have hobtained := h'.value_handle he
    simp only [Operation.onTable, Operation.onMap, Operation.onNames, ht, hobtained, hvalue]
    rw [← hinsert]
    exact ⟨trivial, h'.setValue he _⟩
  | delete name =>
    have hfound : (t.delete name).1 = (s.lookup name).isSome := by
      rw [fst_delete, ← h.find?_value name, Option.isSome_map]
    exact ⟨congrArg Answer.deleted hfound, h.delete name⟩
  | lookup name => exact ⟨congrArg Answer.found (h.find?_value name), h⟩

theorem run (h : t.Holds s names) (ops : List Operation) :
    (runAll (fun t op => op.onTable t) t ops).1 = (runAll (fun s op => op.onMap s) s ops).1 ∧
      (runAll (fun t op => op.onTable t) t ops).2.Holds
        (runAll (fun s op => op.onMap s) s ops).2 (ops.foldl Operation.onNames names) := by
  induction ops generalizing t s names with
  | nil => exact ⟨rfl, h⟩
  | cons op ops ih =>
    obtain ⟨hanswer, hnext⟩ := h.step op
    obtain ⟨hanswers, hlast⟩ := ih hnext
    exact ⟨congrArg₂ List.cons hanswer hanswers, hlast⟩

end Holds

theorem holds_empty (bits made : Nat) : { empty bits with made }.Holds ∅ [] := by
  refine ⟨fun i hi => ?_, fun i hi e he => ?_, List.nodup_nil, fun n => ?_⟩
  · simp [empty]
  · simp [empty] at he
  · simp [Finmap.notMem_empty]

theorem Operation.bits_onTable (t : Table) (op : Operation) : (op.onTable t).2.bits = t.bits := by
  cases op with
  | install name v =>
    simp only [onTable, Table.install]
    split <;> rfl
  | change name f =>
    simp only [onTable, Table.obtain]
    split <;> rfl
  | delete name =>
    simp only [onTable, Table.delete]
    split <;> rfl
  | lookup name => rfl

theorem bits_runAll (t : Table) (ops : List Operation) :
    (runAll (fun t op => op.onTable t) t ops).2.bits = t.bits := by
  induction ops generalizing t with
  | nil => rfl
  | cons op ops ih => exact (ih _).trans (op.bits_onTable t)

def place (count : Nat) (name : Bytes) : Nat :=
  (Bytes.digest name &&& UInt32.ofNat (count - 1)).toNat

theorem bucket_eq_place (t : Table) (name : Bytes) :
    (t.bucket name).val = place (Nat.pow 2 t.bits) name := by
  have hlt : (Bytes.digest name).toNat < 2 ^ 32 := (Bytes.digest name).toNat_lt
  have hmod : (Bytes.digest name).toNat % 2 ^ t.bits < 2 ^ 32 :=
    (Nat.mod_le _ _).trans_lt hlt
  symm
  -- the mask has no more than 32 bits, and neither has the digest
  calc (Bytes.digest name &&& UInt32.ofNat (2 ^ t.bits - 1)).toNat
    _ = (Bytes.digest name).toNat % 2 ^ 32 &&& (2 ^ t.bits - 1) % 2 ^ 32 := by
      rw [UInt32.toNat_and, UInt32.toNat_ofNat', Nat.mod_eq_of_lt hlt]
    _ = (Bytes.digest name).toNat % 2 ^ t.bits % 2 ^ 32 := by
      rw [← Nat.and_mod_two_pow, Nat.and_two_pow_sub_one_eq_mod]
    _ = (Bytes.digest name).toNat % 2 ^ t.bits := Nat.mod_eq_of_lt hmod

theorem bucketBits?_eq_some {count : Int} {bits : Nat} :
    bucketBits? count = some bits ↔ count = 2 ^ bits := by
  have hcast (n : Nat) : (2 : Int) ^ n = ((2 ^ n : Nat) : Int) := (Int.natCast_pow 2 n).symm
  rw [bucketBits?, Option.ite_none_right_eq_some, hcast]
  constructor
  · rintro ⟨⟨hpos, hpow⟩, hbits⟩
    obtain rfl : count.toNat.log2 = bits := Option.some.inj hbits
    exact (Int.toNat_of_nonneg hpos.le).symm.trans (congrArg _ hpow.symm)
  · rintro rfl
    rw [Int.toNat_natCast, Nat.log2_two_pow]
    exact ⟨⟨Int.natCast_pos.2 (Nat.two_pow_pos bits), rfl⟩, rfl⟩

namespace Holds

variable {s : Finmap fun _ : Bytes => Bytes} {names : List Bytes}

theorem names_entries (h : t.Holds s names) :
    t.entries.map Entry.name = (List.range (Nat.pow 2 t.bits)).flatMap fun i =>
      names.filter fun n => place (Nat.pow 2 t.bits) n = i := by
  have hchains : t.chains.toList.map (List.map Entry.name) =
      (List.range (Nat.pow 2 t.bits)).map fun i =>
        names.filter fun n => place (Nat.pow 2 t.bits) n = i := by
    refine List.ext_getElem (by simp) fun i hi hi' => ?_
    have hlt : i < Nat.pow 2 t.bits := by simpa using hi'
    simp [h.chains i hlt, bucket_eq_place]
  rw [entries, List.map_flatten, hchains, List.flatMap]

theorem nodup_entries (h : t.Holds s names) : (t.entries.map Entry.name).Nodup := by
  rw [h.names_entries, List.nodup_flatMap]
  refine ⟨fun i _ => h.nodup.filter _, List.nodup_range.imp fun {i j} hij n hi hj => ?_⟩
  simp only [List.mem_filter, decide_eq_true_eq] at hi hj
  exact hij (hi.2.symm.trans hj.2)

theorem mem_entries (h : t.Holds s names) (name : Bytes) :
    name ∈ t.entries.map Entry.name ↔ name ∈ s := by
  have hlt : place (Nat.pow 2 t.bits) name < Nat.pow 2 t.bits :=
    t.bucket_eq_place name ▸ (t.bucket name).isLt
  rw [h.names_entries, ← h.present]
  simp only [List.mem_flatMap, List.mem_range, List.mem_filter, decide_eq_true_eq]
  exact ⟨fun ⟨_, _, hname, _⟩ => hname, fun hname => ⟨_, hlt, hname, rfl⟩⟩

end Holds

/-- What a table with so many buckets shows of a finite map, and of the order in which its names
were created. -/
structure Shows (count : Nat) (t : Table) (s : Finmap fun _ : Bytes => Bytes)
    (names : List Bytes) : Prop where
  size : Nat.pow 2 t.bits = count
  place_lt : ∀ name, place count name < count
  placed : ∀ i (hi : i < Nat.pow 2 t.bits), ∀ e ∈ t.chains[i], place count e.name = i
  nodup : (t.entries.map Entry.name).Nodup
  present : ∀ name, name ∈ t.entries.map Entry.name ↔ name ∈ s
  found : ∀ name, (t.find? name).map Entry.value = s.lookup name
  values : ∀ e ∈ t.entries, s.lookup e.name = some e.value
  order : t.entries.map Entry.name =
    (List.range count).flatMap fun i => names.filter fun n => place count n = i

theorem Holds.shows {s : Finmap fun _ : Bytes => Bytes} {names : List Bytes} (h : t.Holds s names) :
    Shows (Nat.pow 2 t.bits) t s names where
  size := rfl
  place_lt name := t.bucket_eq_place name ▸ (t.bucket name).isLt
  placed i hi e he := (t.bucket_eq_place e.name).symm.trans (h.bucket_of_mem hi he).2
  nodup := h.nodup_entries
  present := h.mem_entries
  found := h.find?_value
  values e he := by
    obtain ⟨c, hc, he⟩ := List.mem_flatten.1 he
    obtain ⟨i, hi, rfl⟩ := List.mem_iff_getElem.1 hc
    have hlt : i < Nat.pow 2 t.bits := by simpa using hi
    exact h.values i hlt e (by simpa using he)
  order := h.names_entries

end Table

theorem Dictionary.setBuckets_eq_ok {d d' : Dictionary} {count : Int} :
    d.setBuckets count = .ok d' ↔ ∃ bits : Nat, count = 2 ^ bits ∧
      d' = { d with table := { Table.empty bits with made := d.table.made } } := by
  simp only [← Table.bucketBits?_eq_some]
  rw [setBuckets]
  cases Table.bucketBits? count with
  | none => simp
  | some bits => simp [eq_comm]

/-- The macro table is a finite map. A number of buckets is accepted if it is a power of two. Then
whatever operations are made on the table, which is fresh, they are answered as by a finite map. The
table has every entry in the bucket of its name and no name twice, and it is listed bucket by
bucket, in each from the name that was created latest on. -/
theorem table_refines_finmap (d : Dictionary) (count : Int) :
    ((∃ d', d.setBuckets count = .ok d') ↔ ∃ bits : Nat, count = 2 ^ bits) ∧
    ∀ d', d.setBuckets count = .ok d' → ∀ ops : List Table.Operation,
      (Table.runAll (fun t op => op.onTable t) d'.table ops).1 =
        (Table.runAll (fun s op => op.onMap s) ∅ ops).1 ∧
      Table.Shows count.toNat (Table.runAll (fun t op => op.onTable t) d'.table ops).2
        (Table.runAll (fun s op => op.onMap s) ∅ ops).2 (ops.foldl Table.Operation.onNames []) := by
  refine ⟨?_, fun d' hd' ops => ?_⟩
  · simp [Dictionary.setBuckets_eq_ok]
  · obtain ⟨bits, rfl, rfl⟩ := Dictionary.setBuckets_eq_ok.1 hd'
    obtain ⟨hanswers, hholds⟩ := (Table.holds_empty bits d.table.made).run ops
    refine ⟨hanswers, ?_⟩
    have hbits := Table.bits_runAll { Table.empty bits with made := d.table.made } ops
    have hcount : ((2 : Int) ^ bits).toNat = Nat.pow 2 bits := by
      rw [show (2 : Int) ^ bits = ((2 ^ bits : Nat) : Int) from (Int.natCast_pow 2 bits).symm]
      exact Int.toNat_natCast _
    have hshows := hholds.shows
    rw [hbits] at hshows
    rw [hcount]
    exact hshows

def Table.Operation.updating : List Table.Operation :=
  [.install (utf8 "a") (utf8 "1"), .change (utf8 "b") (· ++ utf8 "x"), .install (utf8 "c") [],
    .change (utf8 "a") (· ++ utf8 "2"), .delete (utf8 "b"), .delete (utf8 "b"), .lookup (utf8 "b"),
    .lookup (utf8 "a")]

theorem table_refines_finmap_updating :
    ∃ d', Dictionary.setBuckets {} 2 = .ok d' ∧
      (Table.runAll (fun s op => op.onMap s) ∅ Table.Operation.updating).1 =
        [.installed, .obtained [], .installed, .obtained (utf8 "1"), .deleted true, .deleted false,
          .found none, .found (some (utf8 "12"))] ∧
      Table.Operation.updating.foldl Table.Operation.onNames [] = [utf8 "c", utf8 "a"] ∧
      Table.Shows 2 (Table.runAll (fun t op => op.onTable t) d'.table Table.Operation.updating).2
        (Table.runAll (fun s op => op.onMap s) ∅ Table.Operation.updating).2
        [utf8 "c", utf8 "a"] := by
  obtain ⟨d', hd'⟩ := (table_refines_finmap {} 2).1.2 ⟨1, rfl⟩
  have hnames : Table.Operation.updating.foldl Table.Operation.onNames [] =
      [utf8 "c", utf8 "a"] := by decide
  have h := (table_refines_finmap {} 2).2 d' hd' Table.Operation.updating
  rw [hnames] at h
  exact ⟨d', hd', by decide, hnames, h.2⟩

end TildeText
