import TildeText.Shelf

namespace TildeText

namespace Buffer

def Sound (t : Buffer) : Prop := ∀ d, t.digest = some d → d = t.bytes.digest

variable {t : Buffer}

theorem sound_of_forgotten (h : t.digest = none) : t.Sound := by
  intro d hd
  rw [h] at hd
  cases hd

theorem sound_change (t : Buffer) (s : Bytes) : (t.change s).Sound := sound_of_forgotten rfl

namespace Sound

theorem hash_eq (h : t.Sound) : t.hash = t.bytes.digest := by
  rw [hash]
  cases hd : t.digest with
  | none => rfl
  | some d => exact h d hd

theorem append (h : t.Sound) (s : Bytes) : (t.append s).Sound := by
  rw [Buffer.append]
  split
  · exact h
  · exact t.sound_change _

theorem truncate (h : t.Sound) (n : Int) : (t.truncate n).Sound := by
  rw [Buffer.truncate]
  split
  · exact t.sound_change _
  · exact h

theorem cutAt (h : t.Sound) (i : Int) : (t.cutAt i).1.Sound ∧ (t.cutAt i).2.Sound := by
  rw [Buffer.cutAt]
  split
  · exact ⟨t.sound_change _, sound_of_forgotten rfl⟩
  · exact ⟨h, sound_of_forgotten rfl⟩

theorem slice (h : t.Sound) (start stop : Int) : (t.slice start stop).Sound := by
  rw [Buffer.slice]
  split
  · exact t.sound_change _
  · exact h.truncate 0

theorem hashed (h : t.Sound) : t.hashed.Sound := by
  intro d hd
  obtain rfl : t.hash = d := Option.some_inj.1 hd
  exact h.hash_eq

end Sound

theorem sound_of_substring? {t' : Buffer} (h : t.substring? start count = some t') : t'.Sound := by
  obtain ⟨s, -, rfl⟩ := Option.map_eq_some_iff.1 h
  exact sound_of_forgotten rfl

end Buffer

namespace Shelf

def Sound (s : Shelf) : Prop := ∀ p ∈ s.buffers, p.2.Sound

theorem get?_put (s : Shelf) (label : Bytes) (t : Buffer) :
    (s.put label t).get? label = some t := by
  simp [get?, put]

namespace Sound

variable {s : Shelf} {t : Buffer}

theorem get? (h : s.Sound) (hg : s.get? label = some t) : t.Sound := by
  obtain ⟨before, after, hs, -⟩ := List.lookup_eq_some_iff.1 hg
  exact h (label, t) (by simp [hs])

theorem get (h : s.Sound) (label : Bytes) : (s.get label).Sound := by
  rw [Shelf.get]
  cases hg : s.get? label with
  | none => exact Buffer.sound_of_forgotten rfl
  | some t => exact h.get? hg

theorem remove (h : s.Sound) (label : Bytes) : (s.remove label).Sound :=
  fun p hp => h p (List.mem_filter.1 hp).1

theorem put (h : s.Sound) (label : Bytes) (ht : t.Sound) : (s.put label t).Sound :=
  List.forall_mem_cons.2 ⟨ht, h.remove label⟩

theorem putOption (h : s.Sound) (label : Bytes) {t? : Option Buffer}
    (ht : ∀ t, t? = some t → t.Sound) : (s.putOption label t?).Sound := by
  cases t? with
  | none => exact h.remove label
  | some t => exact h.put label (ht t rfl)

theorem modify (h : s.Sound) (label : Bytes) {f : Buffer → Buffer}
    (hf : ∀ t : Buffer, t.Sound → (f t).Sound) : (s.modify label f).Sound :=
  h.put label (hf _ (h.get label))

theorem apply (h : s.Sound) (c : Change) : (s.apply c).Sound := by
  cases c with
  | put r t new => exact h.put r (Buffer.sound_of_forgotten new)
  | setName r name => exact h.modify r fun t ht => ht
  | append r text => exact h.modify r fun t ht => ht.append text
  | appendRepeat r b count => exact h.modify r fun t ht => ht.append _
  | appendBuffer r o => exact h.modify r fun t ht => ht.append _
  | appendDecimal r n => exact h.modify r fun t ht => ht.append _
  | appendScalar r code => exact h.modify r fun t ht => ht.append _
  | appendTrimmed r o => exact h.modify r fun t ht => ht.append _
  | cutAt r i dest =>
    have hcut := h.modify r fun t ht => (ht.cutAt i).1
    cases dest with
    | none => exact hcut
    | some dest => exact hcut.put dest ((h.get r).cutAt i).2
  | truncate r n =>
    rw [Shelf.apply]
    exact h.modify r fun t ht => ht.truncate n
  | clear r => exact h.modify r fun t ht => ht.truncate 0
  | set r o =>
    -- nothing may be added afterwards, and then it is the wiping that forgets the digest
    have hwiped := h.modify r fun t _ => t.sound_change []
    exact hwiped.modify r fun t ht => ht.append _
  | clone r dest =>
    refine h.putOption dest fun t ht => ?_
    obtain ⟨t', -, rfl⟩ := Option.map_eq_some_iff.1 ht
    exact Buffer.sound_of_forgotten rfl
  | slice r start stop => exact h.modify r fun t ht => ht.slice start stop
  | substring r start count dest => exact h.putOption dest fun t ht => Buffer.sound_of_substring? ht
  | hash r =>
    rw [Shelf.apply]
    split
    · exact h.modify r fun t ht => ht.hashed
    · exact h

theorem applyAll (h : s.Sound) (changes : List Change) : (s.applyAll changes).Sound := by
  induction changes generalizing s with
  | nil => exact h
  | cons c changes ih => exact ih (h.apply c)

end Sound

theorem sound_applyAll (changes : List Change) : (applyAll {} changes).Sound :=
  Sound.applyAll (List.forall_mem_nil _) changes

theorem get?_hash {s : Shelf} (h : s.get? label = some t) :
    (s.apply (.hash label)).get? label = some t.hashed := by
  rw [apply, h, Option.isSome_some, if_pos rfl, modify, get?_put, get, h, Option.getD_some]

end Shelf

/-- A remembered digest is never stale. After any history of a shelf a buffer that remembers a
digest remembers that of its contents, so what it answers is the digest of its contents whether or
not it has been asked before. From then on it does remember it. And buffers with the same contents
answer the same, whatever histories led to them. -/
theorem digests_current (changes : List Shelf.Change) (label : Bytes) :
    (∀ t d, (Shelf.applyAll {} changes).get? label = some t → t.digest = some d →
      d = t.bytes.digest) ∧
    ((Shelf.applyAll {} changes).get label).hash =
      ((Shelf.applyAll {} changes).get label).bytes.digest ∧
    (∀ t, (Shelf.applyAll {} changes).get? label = some t →
      (Shelf.applyAll {} (changes ++ [.hash label])).get? label =
        some { t with digest := some t.bytes.digest }) ∧
    ∀ (changes' : List Shelf.Change) (label' : Bytes),
      ((Shelf.applyAll {} changes).get label).bytes =
        ((Shelf.applyAll {} changes').get label').bytes →
      ((Shelf.applyAll {} changes).get label).hash =
        ((Shelf.applyAll {} changes').get label').hash := by
  have hs := Shelf.sound_applyAll changes
  refine ⟨fun t d ht => hs.get? ht d, (hs.get label).hash_eq, fun t ht => ?_,
    fun changes' label' h => ?_⟩
  · rw [Shelf.applyAll, List.foldl_append]
    have hmarked := Shelf.get?_hash ht
    rwa [Buffer.hashed, (hs.get? ht).hash_eq] at hmarked
  · have hs' := Shelf.sound_applyAll changes'
    rw [(hs.get label).hash_eq, (hs'.get label').hash_eq, h]

def Shelf.rehashed : List Shelf.Change :=
  [.put (utf8 "a") (.ofBytes (utf8 "xy")), .hash (utf8 "a"), .appendBuffer (utf8 "a") (utf8 "a"),
    .hash (utf8 "a"), .cutAt (utf8 "a") 2 (some (utf8 "b")), .hash (utf8 "a"), .hash (utf8 "b"),
    .set (utf8 "b") (utf8 "b"), .append (utf8 "b") (utf8 "xy")]

theorem digests_current_rehashed :
    ((Shelf.applyAll {} Shelf.rehashed).get (utf8 "a")).digest = some (utf8 "xy").digest ∧
    ((Shelf.applyAll {} Shelf.rehashed).get (utf8 "b")).digest = none ∧
    ((Shelf.applyAll {} Shelf.rehashed).get (utf8 "a")).hash =
      ((Shelf.applyAll {} Shelf.rehashed).get (utf8 "b")).hash :=
  ⟨by decide, by decide,
    (digests_current Shelf.rehashed (utf8 "a")).2.2.2 Shelf.rehashed (utf8 "b") (by decide)⟩

end TildeText
