import TildeText.Proofs.Handles
import TildeText.Proofs.Paths
import TildeText.Storage.Disk

namespace TildeText

namespace Library

structure Admitted (name : Bytes) : Prop where
  nonempty : name ≠ []
  notDot : name ≠ Path.dot
  notDotDot : name ≠ Path.dotDot
  slash : Path.slash ∉ name
  backslash : 0x5c ∉ name

def file? (system : FileSystem) (name directory s : Bytes) : Option Bytes :=
  system.content? (Path.join directory (name ++ s))

inductive Supplies (l : Library) (system : FileSystem) (name content : Bytes) : Prop
  | intro (before after before' after' : List Bytes) (directory s : Bytes) :
      l.directories = before ++ directory :: after → l.suffixes = before' ++ s :: after' →
      file? system name directory s = some content →
      (∀ directory' ∈ before, ∀ s' ∈ l.suffixes, file? system name directory' s' = none) →
      (∀ s' ∈ before', file? system name directory s' = none) → Supplies l system name content

def Lacks (l : Library) (system : FileSystem) (name : Bytes) : Prop :=
  ∀ directory ∈ l.directories, ∀ s ∈ l.suffixes, file? system name directory s = none

theorem admits_iff {name : Bytes} : admits name = true ↔ Admitted name := by
  simp only [admits, Bool.and_eq_true, Bool.not_eq_true', List.isEmpty_eq_false_iff, bne_iff_ne,
    List.all_eq_true]
  constructor
  · rintro ⟨⟨⟨hnil, hdot⟩, hup⟩, hall⟩
    exact ⟨hnil, hdot, hup, fun h => (hall _ h).1 rfl, fun h => (hall _ h).2 rfl⟩
  · rintro ⟨hnil, hdot, hup, hslash, hback⟩
    refine ⟨⟨⟨hnil, hdot⟩, hup⟩, fun b hb => ⟨?_, ?_⟩⟩
    · exact fun h => hslash (h ▸ hb)
    · exact fun h => hback (h ▸ hb)

theorem Admitted.isName {name s : Bytes} (h : Admitted name) (hs : Path.slash ∉ s) :
    Path.IsName (name ++ s) := by
  obtain ⟨hnil, hdot, hup, hslash, -⟩ := h
  refine ⟨fun h => hnil (List.append_eq_nil_iff.1 h).1, fun h => ?_, fun h => ?_, fun h => ?_⟩
  · rcases List.append_eq_singleton_iff.1 h with ⟨hname, -⟩ | ⟨hname, -⟩
    · exact hnil hname
    · exact hdot hname
  · rcases List.append_eq_cons_iff.1 h with ⟨hname, -⟩ | ⟨rest, hname, hrest⟩
    · exact hnil hname
    · rcases List.append_eq_singleton_iff.1 hrest.symm with ⟨rfl, -⟩ | ⟨rfl, -⟩
      · exact hdot hname
      · exact hup hname
  · exact (List.mem_append.1 h).elim hslash hs

section Search

variable {l : Library} {system : FileSystem} {name content : Bytes}

theorem findSome?_paths (h : Admitted name) :
    (l.paths name).findSome? system.content? =
      l.directories.findSome? fun directory =>
        l.suffixes.findSome? (file? system name directory) := by
  rw [paths, if_pos (admits_iff.2 h)]
  induction l.directories with
  | nil => rfl
  | cons directory rest ih =>
    have hfile : system.content? ∘ (fun s => Path.join directory (name ++ s)) =
        file? system name directory := rfl
    rw [List.flatMap_cons, List.findSome?_append, ih, List.findSome?_map, hfile,
      List.findSome?_cons]
    cases l.suffixes.findSome? (file? system name directory) <;> rfl

theorem findSome?_paths_eq_some (h : Admitted name) :
    (l.paths name).findSome? system.content? = some content ↔ l.Supplies system name content := by
  rw [findSome?_paths h, List.findSome?_eq_some_iff]
  constructor
  · rintro ⟨before, directory, after, hdirectories, hfound, hbefore⟩
    obtain ⟨before', s, after', hsuffixes, hfile, hbefore'⟩ := List.findSome?_eq_some_iff.1 hfound
    exact ⟨before, after, before', after', directory, s, hdirectories, hsuffixes, hfile,
      fun directory' h => List.findSome?_eq_none_iff.1 (hbefore directory' h), hbefore'⟩
  · rintro ⟨before, after, before', after', directory, s, hdirectories, hsuffixes, hfile, hbefore,
      hbefore'⟩
    exact ⟨before, directory, after, hdirectories,
      List.findSome?_eq_some_iff.2 ⟨before', s, after', hsuffixes, hfile, hbefore'⟩,
      fun directory' h => List.findSome?_eq_none_iff.2 (hbefore directory' h)⟩

theorem findSome?_paths_eq_none (h : Admitted name) :
    (l.paths name).findSome? system.content? = none ↔ l.Lacks system name := by
  rw [findSome?_paths h, List.findSome?_eq_none_iff]
  exact forall₂_congr fun directory _ => List.findSome?_eq_none_iff

end Search

end Library

namespace FileSystem

def untilRead (system : FileSystem) : List Bytes → List Bytes
  | [] => []
  | path :: rest => if (system.content? path).isSome then [path] else path :: system.untilRead rest

variable {system system' : FileSystem}

theorem untilRead_prefix (system : FileSystem) (paths : List Bytes) :
    system.untilRead paths <+: paths := by
  induction paths with
  | nil => exact List.prefix_rfl
  | cons path rest ih =>
    rw [untilRead]
    split
    · exact ⟨rest, rfl⟩
    · exact List.cons_prefix_cons.2 ⟨rfl, ih⟩

theorem findSome?_congr {paths : List Bytes}
    (h : ∀ path ∈ system.untilRead paths, system'.content? path = system.content? path) :
    paths.findSome? system'.content? = paths.findSome? system.content? := by
  induction paths with
  | nil => rfl
  | cons path rest ih =>
    rw [untilRead] at h
    cases hpath : system.content? path with
    | some content =>
      rw [hpath, Option.isSome_some, if_pos rfl, List.forall_mem_singleton, hpath] at h
      rw [List.findSome?_cons, List.findSome?_cons, h, hpath]
    | none =>
      rw [hpath, Option.isSome_none, if_neg Bool.false_ne_true, List.forall_mem_cons, hpath] at h
      rw [List.findSome?_cons, List.findSome?_cons, h.1, hpath]
      exact ih h.2

end FileSystem

namespace Table

variable {t : Table} {name n : Bytes} {e : Entry}

theorem find?_empty (bits made : Nat) (name : Bytes) :
    { empty bits with made }.find? name = none := by
  have hvalue := (holds_empty bits made).find?_value name
  rw [Finmap.lookup_empty] at hvalue
  exact Option.map_eq_none_iff.1 hvalue

theorem find?_link_of_some (he : t.find? name = some e) (hn : t.find? n = none) (v : Bytes) :
    (t.link n v).find? name = some e := by
  have hne : name ≠ n := by
    rintro rfl
    rw [he] at hn
    cases hn
  rw [find?_link, if_neg hne, he]

theorem Has.setValue (h : t.Has e) (g : Handle) (v : Bytes) :
    (t.setValue g v).Has { e with value := if g = e.handle then v else e.value } := by
  obtain ⟨spare, hfind⟩ := h
  have hset : (t.setValue g v).find? e.name = some (({ e with spare } : Entry).setValue g v) := by
    rw [find?_setValue, hfind, Option.map_some]
  by_cases hg : g = e.handle
  · refine ⟨({ e with spare } : Entry).stored.drop v.length, hset.trans ?_⟩
    rw [if_pos hg]
    exact congrArg some (Entry.setValue_of_handle (e := { e with spare }) hg.symm v)
  · refine ⟨spare, hset.trans ?_⟩
    rw [if_neg hg]
    exact congrArg some (Entry.setValue_of_ne (e := { e with spare }) (Ne.symm hg) v)

theorem Has.install (h : t.Has e) (n v : Bytes) :
    (t.install n v).Has { e with value := if n = e.name then v else e.value } := by
  obtain ⟨spare, hfind⟩ := h
  rw [Table.install]
  by_cases hn : n = e.name
  · subst hn
    have hset := Has.setValue ⟨spare, hfind⟩ e.handle v
    rw [if_pos rfl] at hset ⊢
    rw [hfind]
    exact hset
  · rw [if_neg hn]
    cases hn' : t.find? n with
    | none => exact ⟨spare, find?_link_of_some hfind hn' v⟩
    | some e' =>
      have hne : e'.handle ≠ e.handle := by
        intro hh
        have hname : e'.name = e.name := congrArg Handle.name hh
        exact hn ((name_of_find? hn').symm.trans hname)
      have hset := Has.setValue ⟨spare, hfind⟩ e'.handle v
      rwa [if_neg hne] at hset

theorem entries_link (t : Table) (name v : Bytes) :
    ∃ before after, t.entries = before ++ after ∧
      (t.link name v).entries = before ++ { name, value := v, serial := t.made } :: after := by
  have hlt : (t.bucket name).val < t.chains.toList.length := by simp
  have hchain : t.chains.toList[(t.bucket name).val] = t.chain name := by simp [chain]
  have hlink : (t.link name v).chains.toList =
      t.chains.toList.set (t.bucket name).val
        ({ name, value := v, serial := t.made } :: t.chain name) :=
    Vector.toList_set (t.bucket name).isLt
  obtain ⟨before, after, hchains, -, hset⟩ := List.exists_of_set hlt
  rw [hchain] at hchains
  refine ⟨before.flatten, t.chain name ++ after.flatten, ?_, ?_⟩
  · rw [entries, hchains, List.flatten_append, List.flatten_cons]
  · rw [entries, hlink, hset, List.flatten_append, List.flatten_cons]
    rfl

end Table

namespace Dictionary

/-- What can be done to a dictionary. Each thing that has to do with files has a file system of its
own, as the files may change in between. -/
inductive Action
  | install (name value : Bytes)
  | obtain (name : Bytes)
  | assign (h : Handle) (value : Bytes)
  | delete (name : Bytes)
  | find (system : FileSystem) (name : Bytes)
  | set (system : FileSystem) (s : Setting)

namespace Action

/-- The dictionary after an action, which is the one before it if the action fails. -/
def act (d : Dictionary) : Action → Dictionary
  | .install name value => { d with table := d.table.install name value }
  | .obtain name => { d with table := (d.table.obtain name).2 }
  | .assign h value => { d with table := d.table.setValue h value }
  | .delete name => { d with table := (d.table.delete name).2 }
  | .find system name => ((d.find system name).map Prod.snd).toOption.getD d
  | .set system s => (d.set system s).toOption.getD d

/-- Whether an action leaves a name in the table. -/
def spares (name : Bytes) : Action → Bool
  | .delete n => n != name
  | .set _ (.buckets count) => (Table.bucketBits? count).isNone
  | _ => true

/-- The value behind a handle after an action, from the one before it. -/
def valueAfter (h : Handle) (v : Bytes) : Action → Bytes
  | .install name value => if name = h.name then value else v
  | .assign g value => if g = h then value else v
  | _ => v

end Action

def run (d : Dictionary) (actions : List Action) : Dictionary := actions.foldl Action.act d

/-- The files that are read when a name is looked up. -/
def reads (d : Dictionary) (system : FileSystem) (name : Bytes) : List Bytes :=
  if (d.table.find? name).isSome then [] else system.untilRead (d.library.paths name)

structure Sound (d : Dictionary) : Prop where
  bare : d.library.suffixes.head? = some []
  holds : ∃ s names, d.table.Holds s names

structure Gains (d : Dictionary) (e : Entry) (d' : Dictionary) : Prop where
  library : d'.library = d.library
  entries : ∃ before after, d.table.entries = before ++ after ∧
    d'.table.entries = before ++ e :: after
  found : ∀ name, d'.table.find? name = if name = e.name then some e else d.table.find? name

section Find

variable {d d' : Dictionary} {system : FileSystem} {name : Bytes} {e : Entry}

theorem find_of_some (h : d.table.find? name = some e) (system : FileSystem) :
    d.find system name = .ok (e, d) := by
  rw [find, h]

theorem find_of_none (h : d.table.find? name = none) (system : FileSystem) :
    d.find system name = ((d.library.paths name).findSome? system.content?).elim
      (.error (.notFound name d.library.directories)) fun content =>
        .ok ({ name, value := content, serial := d.table.made },
          { d with table := d.table.link name content }) := by
  rw [find, h]
  cases (d.library.paths name).findSome? system.content? <;> rfl

theorem find_eq_ok (h : d.find system name = .ok (e, d')) :
    (d.table.find? name = some e ∧ d' = d) ∨
    (d.table.find? name = none ∧ ∃ content, e = { name, value := content, serial := d.table.made } ∧
      d' = { d with table := d.table.link name content }) := by
  cases hf : d.table.find? name with
  | some e' =>
    rw [find_of_some hf] at h
    cases h
    exact .inl ⟨rfl, rfl⟩
  | none =>
    rw [find_of_none hf] at h
    cases hfound : (d.library.paths name).findSome? system.content? with
    | none =>
      rw [hfound] at h
      cases h
    | some content =>
      rw [hfound] at h
      cases h
      exact .inr ⟨rfl, content, rfl, rfl⟩

theorem find?_of_find (h : d.find system name = .ok (e, d')) : d'.table.find? name = some e := by
  rcases find_eq_ok h with ⟨hf, rfl⟩ | ⟨-, content, rfl, rfl⟩
  · exact hf
  · rw [Table.find?_link, if_pos rfl]

end Find

theorem set_eq_ok {d d' : Dictionary} {system : FileSystem} {s : Setting}
    (h : d.set system s = .ok d') :
    (∃ count bits, s = .buckets count ∧ Table.bucketBits? count = some bits ∧
      d' = { d with table := { Table.empty bits with made := d.table.made } }) ∨
    (∃ paths, s = .directories paths ∧
      d' = { d with library.directories := d.library.directories ++ paths }) ∨
    (∃ suffix, s = .suffix suffix ∧
      d' = { d with library.suffixes := d.library.suffixes ++ [suffix] }) := by
  cases s with
  | buckets count =>
    rw [set, setBuckets] at h
    split at h
    · rename_i bits hbits
      cases h
      exact .inl ⟨count, bits, rfl, hbits, rfl⟩
    · cases h
  | directories paths =>
    rw [set, addDirectories] at h
    split at h
    · cases h
    · cases hall : paths.forM system.checkDirectory with
      | error e =>
        rw [hall] at h
        cases h
      | ok u =>
        rw [hall] at h
        cases h
        exact .inr (.inl ⟨paths, rfl, rfl⟩)
  | suffix s =>
    cases h
    exact .inr (.inr ⟨s, rfl, rfl⟩)

theorem sound_empty : Sound {} where
  bare := rfl
  holds := ⟨∅, [], Table.holds_empty 10 0⟩

namespace Sound

variable {d : Dictionary}

theorem setTable (hd : d.Sound) {t : Table} (ht : ∃ s names, t.Holds s names) :
    Sound { d with table := t } :=
  ⟨hd.bare, ht⟩

theorem set (hd : d.Sound) {system : FileSystem} {s : Setting} {d' : Dictionary}
    (h : d.set system s = .ok d') : d'.Sound := by
  rcases set_eq_ok h with ⟨count, bits, -, -, rfl⟩ | ⟨paths, -, rfl⟩ | ⟨suffix, -, rfl⟩
  · exact hd.setTable ⟨∅, [], Table.holds_empty bits d.table.made⟩
  · exact ⟨hd.bare, hd.holds⟩
  · refine ⟨?_, hd.holds⟩
    rw [List.head?_append, hd.bare, Option.some_or]

theorem act (hd : d.Sound) (a : Action) : (a.act d).Sound := by
  obtain ⟨s, names, ht⟩ := hd.holds
  cases a with
  | install name value => exact hd.setTable ⟨_, _, ht.install name value⟩
  | obtain name =>
    obtain ⟨e, t', s', heq, -, -, -, ht', -⟩ := ht.obtain name
    refine hd.setTable ⟨s', Table.Operation.create names name, ?_⟩
    rw [heq]
    exact ht'
  | assign h value =>
    by_cases hlive : d.table.Live h
    · obtain ⟨e, he, rfl⟩ := Option.map_eq_some_iff.1 hlive
      exact hd.setTable ⟨_, _, ht.setValue (ht.of_find? he).2.1 value⟩
    · exact hd.setTable ⟨_, _, ht.setValue_retired hlive value⟩
  | delete name => exact hd.setTable ⟨_, _, ht.delete name⟩
  | find system name =>
    rw [Action.act]
    cases hfind : d.find system name with
    | error e => exact hd
    | ok p =>
      obtain ⟨e, d'⟩ := p
      rcases find_eq_ok hfind with ⟨-, rfl⟩ | ⟨hnone, content, -, rfl⟩
      · exact hd
      · exact hd.setTable ⟨_, _, ht.link (ht.not_mem_of_find? hnone) content⟩
  | set system s =>
    rw [Action.act]
    cases hset : d.set system s with
    | error e => exact hd
    | ok d' => exact hd.set hset

theorem run (hd : d.Sound) (actions : List Action) : (d.run actions).Sound := by
  induction actions generalizing d with
  | nil => exact hd
  | cons a actions ih => exact ih (hd.act a)

theorem has_act (hd : d.Sound) {e : Entry} (he : d.table.Has e) {a : Action}
    (ha : a.spares e.name = true) :
    (a.act d).table.Has { e with value := a.valueAfter e.handle e.value } := by
  obtain ⟨s, names, ht⟩ := hd.holds
  obtain ⟨spare, hfind⟩ := id he
  cases a with
  | install n v => exact he.install n v
  | obtain n =>
    rw [Action.act, Table.obtain]
    cases hn : d.table.find? n with
    | none => exact ⟨spare, Table.find?_link_of_some hfind hn []⟩
    | some e' => exact he
  | assign h v => exact he.setValue h v
  | delete n =>
    refine ⟨spare, ?_⟩
    rw [Action.act, Table.find?_delete ht, if_neg (Ne.symm (bne_iff_ne.1 ha))]
    exact hfind
  | find system n =>
    rw [Action.act]
    cases hfound : d.find system n with
    | error p => exact he
    | ok p =>
      obtain ⟨e', d'⟩ := p
      rcases find_eq_ok hfound with ⟨-, rfl⟩ | ⟨hnone, content, -, rfl⟩
      · exact he
      · exact ⟨spare, Table.find?_link_of_some hfind hnone content⟩
  | set system s =>
    rw [Action.act]
    cases hset : d.set system s with
    | error p => exact he
    | ok d' =>
      rcases set_eq_ok hset with ⟨count, bits, rfl, hbits, rfl⟩ | ⟨paths, rfl, rfl⟩ |
        ⟨suffix, rfl, rfl⟩
      · rw [Action.spares, hbits] at ha
        cases ha
      · exact he
      · exact he

theorem find?_act_of_not_spares (hd : d.Sound) {name : Bytes} {a : Action}
    (ha : a.spares name = false) : (a.act d).table.find? name = none := by
  obtain ⟨s, names, ht⟩ := hd.holds
  cases a with
  | delete n =>
    rw [Action.act, Table.find?_delete ht, if_pos (bne_eq_false_iff_eq.1 ha).symm]
  | set system s =>
    cases s with
    | buckets count =>
      rw [Action.spares, Option.isNone_eq_false_iff, Option.isSome_iff_exists] at ha
      obtain ⟨bits, hbits⟩ := ha
      rw [Action.act, Dictionary.set, setBuckets, hbits]
      exact Table.find?_empty bits d.table.made name
    | directories paths => cases ha
    | suffix s => cases ha
  | _ => cases ha

theorem has_run (hd : d.Sound) {e : Entry} (he : d.table.Has e) {actions : List Action}
    (h : ∀ a ∈ actions, a.spares e.name = true) :
    (d.run actions).table.Has
      { e with value := actions.foldl (Action.valueAfter e.handle) e.value } := by
  induction actions generalizing d e with
  | nil => exact he
  | cons a actions ih =>
    obtain ⟨ha, hrest⟩ := List.forall_mem_cons.1 h
    exact ih (hd.act a) (hd.has_act he ha) hrest

end Sound

/-- What looking a name up does. No file is read for a name that is in the table, nor for one that
is refused, and what is found depends on no file but those that are read. -/
structure LooksUp (d : Dictionary) (system : FileSystem) (name : Bytes) : Prop where
  present : ∀ e, d.table.find? name = some e →
    d.find system name = .ok (e, d) ∧ d.reads system name = []
  refused : d.table.find? name = none → ¬ Library.Admitted name →
    d.find system name = .error (.notFound name d.library.directories) ∧ d.reads system name = []
  absent : d.table.find? name = none → Library.Admitted name →
    (∃ content d', d.library.Supplies system name content ∧
      d.find system name = .ok ({ name, value := content, serial := d.table.made }, d') ∧
      d.Gains { name, value := content, serial := d.table.made } d') ∨
    (d.library.Lacks system name ∧
      d.find system name = .error (.notFound name d.library.directories))
  inOrder : d.reads system name <+: d.library.paths name
  contained : ∀ path ∈ d.reads system name, ∃ directory ∈ d.library.directories,
    ∃ s ∈ d.library.suffixes, path = Path.join directory (name ++ s) ∧
      (Path.slash ∉ s → Path.IsEntry directory (name ++ s) path)
  noOther : ∀ system',
    (∀ path ∈ d.reads system name, system'.content? path = system.content? path) →
    d.find system' name = d.find system name
  failed : ∀ p, d.find system name = .error p →
    p.isNotFound = true ∧ (Action.find system name).act d = d

section LooksUp

variable {d : Dictionary} {system : FileSystem} {name : Bytes}

theorem reads_prefix (d : Dictionary) (system : FileSystem) (name : Bytes) :
    d.reads system name <+: d.library.paths name := by
  rw [reads]
  split
  · exact List.nil_prefix
  · exact system.untilRead_prefix _

theorem find_congr {system' : FileSystem}
    (h : ∀ path ∈ d.reads system name, system'.content? path = system.content? path) :
    d.find system' name = d.find system name := by
  cases hf : d.table.find? name with
  | some e => rw [find_of_some hf, find_of_some hf]
  | none =>
    rw [reads, hf] at h
    rw [find_of_none hf, find_of_none hf, FileSystem.findSome?_congr h]

theorem gains_link (d : Dictionary) (name content : Bytes) :
    d.Gains { name, value := content, serial := d.table.made }
      { d with table := d.table.link name content } :=
  ⟨rfl, d.table.entries_link name content, Table.find?_link content⟩

theorem isEntry_of_mem_paths {path : Bytes}
    (h : path ∈ d.library.paths name) :
    ∃ directory ∈ d.library.directories, ∃ s ∈ d.library.suffixes,
      path = Path.join directory (name ++ s) ∧
        (Path.slash ∉ s → Path.IsEntry directory (name ++ s) path) := by
  rw [Library.paths] at h
  split at h
  · rename_i hadmits
    obtain ⟨directory, hdirectory, hmem⟩ := List.mem_flatMap.1 h
    obtain ⟨s, hs, rfl⟩ := List.mem_map.1 hmem
    refine ⟨directory, hdirectory, s, hs, rfl, fun hslash => ?_⟩
    exact Path.isEntry_join directory ((Library.admits_iff.1 hadmits).isName hslash)
  · cases h

theorem paths_of_refused (l : Library) (h : ¬ Library.Admitted name) : l.paths name = [] :=
  if_neg (mt Library.admits_iff.1 h)

theorem looksUp (d : Dictionary) (system : FileSystem) (name : Bytes) : d.LooksUp system name where
  present e he := ⟨find_of_some he system, by rw [reads, he]; rfl⟩
  refused hnone hname := by
    rw [find_of_none hnone, reads, hnone, paths_of_refused d.library hname]
    exact ⟨rfl, rfl⟩
  absent hnone hname := by
    rw [find_of_none hnone]
    cases hfound : (d.library.paths name).findSome? system.content? with
    | some content =>
      exact .inl ⟨content, _, (Library.findSome?_paths_eq_some hname).1 hfound, rfl,
        d.gains_link name content⟩
    | none => exact .inr ⟨(Library.findSome?_paths_eq_none hname).1 hfound, rfl⟩
  inOrder := d.reads_prefix system name
  contained path hpath := isEntry_of_mem_paths ((d.reads_prefix system name).subset hpath)
  noOther _ h := find_congr h
  failed p h := by
    refine ⟨?_, ?_⟩
    · rw [find.eq_def] at h
      split at h
      · cases h
      · split at h
        · cases h
        · cases h
          rfl
    · rw [Action.act, h]
      rfl

end LooksUp

/-- Lookup in a library is contained, in order and cached. Whatever was done to a dictionary, a name
is looked up as `LooksUp` says, with the bare name tried first in each directory. Once it is found,
it is found again as the same entry, with nothing read, whatever else is done and whatever becomes
of the files, until the name is deleted or the table is made anew; then it is not in the table. -/
theorem lookup_cached (history : List Action) (system : FileSystem) (name : Bytes) :
    (run {} history).LooksUp system name ∧ (run {} history).library.suffixes.head? = some [] ∧
    ∀ e d', (run {} history).find system name = .ok (e, d') → ∀ later : List Action,
      (∀ a ∈ later, a.spares name = true) →
      (∃ spare, ∀ system', (d'.run later).find system' name =
          .ok ({ e with value := later.foldl (Action.valueAfter e.handle) e.value, spare },
            d'.run later) ∧
        (d'.run later).reads system' name = []) ∧
      ∀ a : Action, a.spares name = false → (a.act (d'.run later)).table.find? name = none := by
  have hd := sound_empty.run history
  refine ⟨looksUp _ system name, hd.bare, fun e d' hfind later hlater => ?_⟩
  have hact : (Action.find system name).act (run {} history) = d' := by
    rw [Action.act, hfind]
    rfl
  have hd' : d'.Sound := hact ▸ hd.act (.find system name)
  have hfound := find?_of_find hfind
  obtain rfl : e.name = name := Table.name_of_find? hfound
  obtain ⟨spare, hlast⟩ := hd'.has_run ⟨e.spare, hfound⟩ hlater
  refine ⟨⟨spare, fun system' => (looksUp _ system' e.name).present _ hlast⟩, fun a ha => ?_⟩
  exact (hd'.run later).find?_act_of_not_spares ha

def shelved : FileSystem :=
  ((({} : Disk).withDirectory (utf8 "lib")).withFile (utf8 "lib/m.ti") (utf8 "b")).system

def shelving : List Action :=
  [.set .empty (.buckets 2), .set shelved (.directories [utf8 "lib"]),
    .set .empty (.suffix (utf8 ".ti"))]

theorem lookup_cached_suffixed :
    ∃ d', (run {} shelving).find shelved (utf8 "m") =
        .ok ({ name := utf8 "m", value := utf8 "b", serial := 0 }, d') ∧
      ∃ spare, (d'.run [.delete (utf8 "n"), .assign ⟨utf8 "m", 0⟩ (utf8 "c")]).find .empty
          (utf8 "m") =
        .ok ({ name := utf8 "m", value := utf8 "c", serial := 0, spare },
          d'.run [.delete (utf8 "n"), .assign ⟨utf8 "m", 0⟩ (utf8 "c")]) := by
  obtain ⟨d', hd'⟩ : ∃ d', (run {} shelving).find shelved (utf8 "m") =
      .ok ({ name := utf8 "m", value := utf8 "b", serial := 0 }, d') := ⟨_, rfl⟩
  obtain ⟨-, -, hcached⟩ := lookup_cached shelving shelved (utf8 "m")
  obtain ⟨⟨spare, hfind⟩, -⟩ :=
    hcached _ d' hd' [.delete (utf8 "n"), .assign ⟨utf8 "m", 0⟩ (utf8 "c")] (by decide)
  exact ⟨d', hd', spare, (hfind .empty).1⟩

end Dictionary

end TildeText
