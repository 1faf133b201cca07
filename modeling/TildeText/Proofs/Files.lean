import TildeText.Proofs.Hosts
import TildeText.Proofs.Paths
import TildeText.Storage.Disk

namespace TildeText

theorem lookup_filter [BEq α] [LawfulBEq α] {keep : α × β → Bool} {a : α}
    (h : ∀ b, keep (a, b) = true) (l : List (α × β)) : (l.filter keep).lookup a = l.lookup a := by
  induction l with
  | nil => rfl
  | cons x l ih =>
    obtain ⟨a', b⟩ := x
    rw [List.filter_cons]
    by_cases ha : a = a'
    · subst ha
      simp [h]
    · have hne : (a == a') = false := beq_false_of_ne ha
      split
      · rw [List.lookup_cons, List.lookup_cons, hne, ih]
      · rw [List.lookup_cons, hne, ih]

namespace Disk

variable {d : Disk} {p q r : Place} {n : Node}

theorem node?_put_self (h : r.names ≠ []) : (d.put r n).node? r = some n := by
  simp [node?, put, h]

theorem node?_put_ne (h : q ≠ r) : (d.put r n).node? q = d.node? q := by
  rw [node?, node?, put, List.lookup_cons, beq_false_of_ne h]
  rw [lookup_filter fun _ => decide_eq_true h]

theorem enter_put (hr : d.node? r ≠ some .directory) (h : d.enter p part = .ok q) :
    (d.put r n).enter p part = .ok q := by
  have hp : p ≠ r := by
    rintro rfl
    rw [enter] at h
    split at h
    · cases h
    · cases h
    · contradiction
  rw [enter, node?_put_ne hp]
  exact h

theorem follow_put (hr : d.node? r ≠ some .directory) (h : d.follow p parts = .ok q) :
    (d.put r n).follow p parts = .ok q := by
  induction parts generalizing p with
  | nil => exact h
  | cons part parts ih =>
    rw [follow] at h ⊢
    cases he : d.enter p part with
    | error t => rw [he] at h; cases h
    | ok p' =>
      rw [he] at h
      rw [enter_put hr he]
      exact ih h

theorem follow_concat {parts : List Bytes} {part : Bytes} :
    d.follow p (parts ++ [part]) = .ok q ↔
      ∃ p', d.follow p parts = .ok p' ∧ d.enter p' part = .ok q := by
  induction parts generalizing p with
  | nil =>
    simp only [List.nil_append, follow]
    cases he : d.enter p part with
    | error t => simp [he]
    | ok p' => simp [he]
  | cons first parts ih =>
    simp only [List.cons_append, follow]
    cases d.enter p first with
    | error t => simp
    | ok p' => exact ih

theorem enter_blank {part : Bytes} (hblank : part = [] ∨ part = Path.dot)
    (h : d.enter p part = .ok q) : q = p := by
  rw [enter] at h
  split at h
  · cases h
  · cases h
  · rw [if_pos hblank] at h
    cases h
    rfl

theorem concat_last {parts : List Bytes} (h : parts ≠ []) :
    parts.dropLast ++ [parts.getLast?.getD []] = parts := by
  rw [List.getLast?_eq_some_getLast h]
  exact List.dropLast_concat_getLast h

theorem target_eq_ok (h : d.target path = .ok q) :
    refusal? path = none ∧ d.follow (start path) (Path.parts path) = .ok q ∧
      d.node? q ≠ some .directory := by
  rw [target] at h
  split at h
  · cases h
  · rename_i hrefusal
    refine ⟨hrefusal, ?_⟩
    simp only at h
    split at h
    · cases h
    · rename_i p hfollow
      split at h
      · cases h
      · rename_i hname
        have hslashes : Path.stripSlashes path = path :=
          Decidable.not_not.1 fun hne => hname (.inl hne)
        rw [hslashes] at hfollow h
        obtain ⟨p', hp', hdot⟩ := follow_concat.1 hfollow
        cases enter_blank (.inr rfl) hdot
        split at h
        · cases h
        · rename_i q' henter
          split at h
          · cases h
          · rename_i hnode
            cases h
            rw [← concat_last (Path.parts_ne_nil path)]
            exact ⟨follow_concat.2 ⟨p, hp', henter⟩, hnode⟩

theorem stat_write (h : d.write path content = .ok d') : d'.stat path = .ok (.file content) := by
  rw [write] at h
  split at h
  · rename_i q htarget
    cases h
    obtain ⟨hrefusal, hfollow, hnode⟩ := target_eq_ok htarget
    have hnames : q.names ≠ [] := by
      intro hq
      simp [node?, hq] at hnode
    rw [stat, hrefusal]
    simp only [follow_put hnode hfollow, node?_put_self hnames, Option.elim_some]
  · cases h

end Disk

/-- What a file system was told to write and did not refuse is what is read next. -/
def FileSystem.Keeps (f : FileSystem) : Prop :=
  ∀ written path content, f.onWrite written path content = .ok () →
    f.onCheckFile ((path, content) :: written) path = .ok () ∧
      f.onRead ((path, content) :: written) path = .ok content

theorem FileSystem.AnswersAs.keeps {f g : FileSystem} (h : f.AnswersAs g) (hg : g.Keeps) :
    f.Keeps := by
  rw [h]
  exact hg

theorem Disk.system_keeps (d : Disk) : d.system.Keeps := by
  intro written path content hwrite
  change ((d.after written).write path content).map _ = .ok () at hwrite
  cases hd : (d.after written).write path content with
  | error p =>
    rw [hd] at hwrite
    cases hwrite
  | ok d' =>
    have hafter : d.after ((path, content) :: written) = d' := by
      simp only [after, List.foldr_cons] at hd ⊢
      rw [hd]
      rfl
    have hstat := stat_write hd
    constructor
    · change (d.after ((path, content) :: written)).checkFile path = .ok ()
      rw [hafter, checkFile, hstat]
    · change (d.after ((path, content) :: written)).read path = .ok content
      rw [hafter, read, hstat]

theorem FileSystem.Keeps.read_write {f f' : FileSystem} (h : f.Keeps)
    (hwrite : f.write path content = (.ok (), f')) : f'.read path = .ok content := by
  simp only [write, Prod.mk.injEq] at hwrite
  obtain ⟨hok, rfl⟩ := hwrite
  obtain ⟨hcheck, hread⟩ := h _ _ _ hok
  rw [read, hcheck]
  exact hread

end TildeText
