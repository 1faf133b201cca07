import TildeText.Proofs.Invariant

namespace TildeText

def FileSystem.AnswersAs (f g : FileSystem) : Prop := f = { g with written := f.written }

theorem FileSystem.AnswersAs.write {f g : FileSystem} (h : f.AnswersAs g) (path content : Bytes) :
    (f.write path content).2.AnswersAs g := by
  rw [FileSystem.write, h]
  rfl

theorem FileSystem.AnswersAs.refl (f : FileSystem) : f.AnswersAs f := rfl

namespace Storage

theorem system_read (s : Storage) (name : Bytes) : (s.read name).2.system = s.system := by
  rw [read]
  split <;> rfl

theorem answersAs_write {s : Storage} {g : FileSystem} (h : s.system.AnswersAs g)
    (name content : Bytes) : (s.write name content).2.system.AnswersAs g := by
  rw [write]
  split
  · exact h.write name content
  · exact h

end Storage

theorem Reports.toBytes_add (r : Reports) (records : List Bytes) :
    (r.add records).toBytes = r.toBytes ++ records.flatten := by
  simp [toBytes, add]

namespace Writer

variable {w : Writer}

theorem refusal_of_offer {refusal : List Bytes → Bytes → Option Problem}
    {asked records : List Bytes} (h : (offer refusal asked records).2 = .error p) :
    ∃ asked s, refusal asked s = some p := by
  induction records generalizing asked with
  | nil => cases h
  | cons record rest ih =>
    rw [offer] at h
    split at h
    · rename_i hrefusal
      cases h
      exact ⟨asked, record, hrefusal⟩
    · exact ih h

/-- A writer that never refuses a record. -/
def Accepts (w : Writer) : Prop := ∀ asked s, w.refusal asked s = none

theorem Accepts.offer (h : w.Accepts) (asked records : List Bytes) :
    offer w.refusal asked records = (records, .ok ()) := by
  induction records generalizing asked with
  | nil => rfl
  | cons record rest ih => rw [Writer.offer, h asked record, ih]

theorem Accepts.write (h : w.Accepts) (records : List Bytes) :
    ∃ w', w.write records = (.ok (), w') ∧ w'.Accepts ∧ w'.written = w.written.add records := by
  rw [Writer.write, h.offer]
  exact ⟨_, rfl, h, rfl⟩

theorem Accepts.toBytes_write (h : w.Accepts) (records : List Bytes) :
    (w.write records).2.written.toBytes = w.written.toBytes ++ records.flatten := by
  obtain ⟨w', hwrite, -, hwritten⟩ := h.write records
  rw [hwrite, hwritten, Reports.toBytes_add]

end Writer

/-- A fault of one of the kinds, a refusal by the writer for diagnostics, or a crash. -/
def Failure.Expected (refusal : List Bytes → Bytes → Option Problem) : Failure → Prop
  | .fault f => f.kind ∈ Kind.all
  | .problem p => ∃ asked s, refusal asked s = some p
  | .crash _ _ _ => True

theorem Kind.mem_all (k : Kind) : k ∈ all := by cases k <;> decide

structure Machine.Hosted (system : FileSystem) (refusal : List Bytes → Bytes → Option Problem)
    (m : Machine) : Prop where
  system : m.state.storage.system.AnswersAs system
  refusal : m.state.diagnostics.refusal = refusal

namespace Machine.Hosted

variable {system : FileSystem} {refusal : List Bytes → Bytes → Option Problem} {m : Machine}

theorem report (h : m.Hosted system refusal) (records : List Bytes) :
    (m.report records).EndsIn (Hosted system refusal) (Failure.Expected refusal) := by
  have hwriter : (m.state.diagnostics.write records).2.refusal = refusal := h.refusal
  have hrefused (p : Problem) (hp : (m.state.diagnostics.write records).1 = .error p) :
      Failure.Expected refusal (.problem p) := by
    rw [← h.refusal]
    exact Writer.refusal_of_offer hp
  rw [Machine.report]
  split
  · rename_i w hw
    rw [hw] at hwriter
    exact ⟨h.system, hwriter⟩
  · rename_i p w hw
    rw [hw] at hwriter hrefused
    exact ⟨hrefused p rfl, h.system, hwriter⟩

theorem perform (h : m.Hosted system refusal) (ctx : Context) (r : Request)
    (hr : r.evaluates = false) :
    (r.perform ctx m).EndsIn (Hosted system refusal) (Failure.Expected refusal) := by
  cases r with
  | argument n => cases hr
  | evalHere src => cases hr
  | evalUnder label src => cases hr
  | load name =>
    have hsystem := (m.state.storage.system_read name).symm ▸ h.system
    exact ⟨hsystem, h.refusal⟩
  | store name content => exact ⟨Storage.answersAs_write h.system name content, h.refusal⟩
  | print s => exact h.report [s]
  | dump => exact h.report _
  | _ => exact ⟨h.system, h.refusal⟩

theorem invariant {registry : Registry} {E : Failure → Prop} (hE : ∀ e, e.Expected refusal → E e)
    (hown : ∀ entry ∈ registry, entry.2.Within (fun _ => True) (fun _ => True) E) :
    Invariant registry (fun _ : Unit => True) (fun _ => Hosted system refusal) E where
  write h _ := ⟨h.system, h.refusal⟩
  fault _ kind _ _ := hE _ kind.mem_all
  own := hown
  rebind h _ _ := ⟨h.system, h.refusal⟩
  dictionary h _ := ⟨h.system, h.refusal⟩
  perform _ h ctx r hr := by
    have hends := h.perform ctx r hr
    cases hx : r.perform ctx _ with
    | done a m₁ =>
      rw [hx] at hends
      exact hends
    | failed e m₁ =>
      rw [hx] at hends
      exact ⟨hE e hends.1, hends.2⟩
    | exhausted => trivial
  push h _ := ⟨(), trivial, ⟨h.system, h.refusal⟩, fun _ h₁ => ⟨h₁.system, h₁.refusal⟩⟩
  aside h := ⟨(), ⟨h.system, h.refusal⟩, fun _ h₁ =>
    ⟨⟨h₁.system, h₁.refusal⟩, fun _ _ _ _ => ⟨h₁.system, h₁.refusal⟩⟩⟩

theorem eval (h : m.Hosted system refusal) (registry : Registry) (k : Nat) (src : Source) :
    (eval registry k src m).Holds (Hosted system refusal) :=
  ((invariant (fun _ _ => trivial) registry.asksOnly).endsIn k src (w := ()) h).holds fun _ => id

end Machine.Hosted

end TildeText
