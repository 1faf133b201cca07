import TildeText.Processor
import TildeText.Proofs.Asking
import TildeText.Proofs.PlainText

namespace TildeText

namespace Bytes

def entities : List (Bytes × UInt8) := [
  (utf8 "&amp;", 0x26),
  (utf8 "&lt;", 0x3c),
  (utf8 "&gt;", 0x3e),
  (utf8 "&quot;", 0x22),
  (utf8 "&#039;", 0x27),
  (utf8 "&#092;", 0x5c),
  (utf8 "&#126;", 0x7e)]

def entityAt? (s : Bytes) : Option (Bytes × UInt8) := entities.find? (·.1.isPrefixOf s)

def unentityifyAfter : Nat → Bytes → Bytes
  | _, [] => []
  | k + 1, _ :: s => unentityifyAfter k s
  | 0, b :: s =>
    match entityAt? (b :: s) with
    | some (e, c) => c :: unentityifyAfter (e.length - 1) s
    | none => b :: unentityifyAfter 0 s

def unentityify (s : Bytes) : Bytes := unentityifyAfter 0 s

/-- Drops the backslash before each backslash or quote, from left to right. -/
def unslashify : Bytes → Bytes
  | b :: c :: s =>
    if b = 0x5c ∧ (c = 0x5c ∨ c = 0x27 ∨ c = 0x22) then c :: unslashify s
    else b :: unslashify (c :: s)
  | s => s

theorem mem_entities {b : UInt8} {e : Bytes} (h : entity? b = some e) : (e, b) ∈ entities := by
  simp only [entity?, beq_iff_eq] at h
  repeat' split at h
  all_goals cases h
  all_goals subst_vars; simp [entities]

theorem entityAt?_entity {e : Bytes} {b : UInt8} (h : (e, b) ∈ entities) (s : Bytes) :
    entityAt? (e ++ s) = some (e, b) := by
  simp only [entities, List.mem_cons, Prod.mk.injEq, List.not_mem_nil, or_false] at h
  rcases h with ⟨rfl, rfl⟩ | ⟨rfl, rfl⟩ | ⟨rfl, rfl⟩ | ⟨rfl, rfl⟩ | ⟨rfl, rfl⟩ | ⟨rfl, rfl⟩ |
    ⟨rfl, rfl⟩ <;> rfl

theorem entity_starts : ∀ p ∈ entities, p.1.head? = some 0x26 := by
  decide

theorem entity_free : ∀ p ∈ entities, Token.lt ∉ p.1 ∧ Token.tilde ∉ p.1 := by
  decide

theorem entityAt?_of_ne {b : UInt8} (h : b ≠ 0x26) (s : Bytes) : entityAt? (b :: s) = none := by
  refine List.find?_eq_none.2 fun p hp hstart => h ?_
  obtain ⟨rest, hrest⟩ := List.isPrefixOf_iff_prefix.1 hstart
  have hhead : (b :: s).head? = some 0x26 := by
    rw [← hrest, List.head?_append, entity_starts p hp, Option.some_or]
  exact Option.some.inj hhead

theorem unentityifyAfter_eq (k : Nat) (s : Bytes) :
    unentityifyAfter k s = unentityify (s.drop k) := by
  induction k generalizing s with
  | zero => rfl
  | succ k ih =>
    cases s with
    | nil => rfl
    | cons b s => exact ih s

theorem unentityify_entity {e : Bytes} {b : UInt8} (h : (e, b) ∈ entities) (s : Bytes) :
    unentityify (e ++ s) = b :: unentityify s := by
  have hat := entityAt?_entity h s
  obtain ⟨tail, rfl⟩ := List.head?_eq_some_iff.1 (entity_starts _ h)
  rw [List.cons_append] at hat ⊢
  rw [unentityify, unentityifyAfter, hat]
  simp only [unentityifyAfter_eq, List.length_cons, Nat.add_sub_cancel, List.drop_left]

theorem unentityify_byte {b : UInt8} (h : b ≠ 0x26) (s : Bytes) :
    unentityify (b :: s) = b :: unentityify s := by
  rw [unentityify, unentityifyAfter, entityAt?_of_ne h]
  rfl

theorem unentityify_entityByte (b : UInt8) (s : Bytes) :
    unentityify (entityByte b ++ s) = b :: unentityify s := by
  rw [entityByte]
  cases he : entity? b with
  | some e => exact unentityify_entity (mem_entities he) s
  | none =>
    refine unentityify_byte (fun hb => ?_) s
    rw [hb] at he
    cases he

theorem unentityify_entityify (v : Bytes) : unentityify (entityify v) = v := by
  induction v with
  | nil => rfl
  | cons b v ih =>
    rw [entityify, List.flatMap_cons, unentityify_entityByte]
    exact congrArg (b :: ·) ih

example : unentityify (utf8 "&amp;lt;&lt;&;") = utf8 "&lt;<&;" := by decide

theorem unslashify_byte {b : UInt8} (h : b ≠ 0x5c) (s : Bytes) :
    unslashify (b :: s) = b :: unslashify s := by
  cases s with
  | nil => rfl
  | cons c s => rw [unslashify, if_neg fun hbc => h hbc.1]

theorem unslashify_slashByte (b : UInt8) (s : Bytes) :
    unslashify (slashByte b ++ s) = b :: unslashify s := by
  rw [slashByte]
  cases hb : isSlashed b with
  | true =>
    simp only [isSlashed, Bool.or_eq_true, beq_iff_eq, or_assoc] at hb
    exact if_pos ⟨rfl, hb⟩
  | false =>
    refine unslashify_byte (fun h => ?_) s
    rw [h] at hb
    cases hb

theorem unslashify_slashify (v : Bytes) : unslashify (slashify v) = v := by
  induction v with
  | nil => rfl
  | cons b v ih =>
    rw [slashify, List.flatMap_cons, unslashify_slashByte]
    exact congrArg (b :: ·) ih

theorem entityByte_free (b : UInt8) : Token.lt ∉ entityByte b ∧ Token.tilde ∉ entityByte b := by
  rw [entityByte]
  cases he : entity? b with
  | some e => exact entity_free _ (mem_entities he)
  | none =>
    have plain {a : UInt8} (ha : entity? a ≠ none) : a ∉ [b] := by
      intro hab
      rw [List.mem_singleton.1 hab] at ha
      exact ha he
    exact ⟨plain (by decide), plain (by decide)⟩

theorem isPlain_entityify (v : Bytes) : IsPlain (entityify v) := by
  refine isPlain_of_free ⟨fun h => ?_, fun h => ?_⟩
  · obtain ⟨b, -, hb⟩ := List.mem_flatMap.1 h
    exact (entityByte_free b).1 hb
  · obtain ⟨b, -, hb⟩ := List.mem_flatMap.1 h
    exact (entityByte_free b).2 hb

end Bytes

theorem Program.run_writeOf (f : Bytes → Bytes) (ctx : Context) (m : Machine) :
    Program.run ctx (do write (f (← arg 1)); return Verdict.finished) m =
      (m.argument ctx.eval 1).andThen fun v m₁ => .done .finished (m₁.write (f (v.getD []))) := by
  rw [run_seq, run_arg_eq]
  cases m.argument ctx.eval 1 <;> rfl

/-- Both escapes are undone by reading them from left to right, the builtins write just them, and
a text of entities is evaluated to itself in any state and any scope, with no effect but that it is
written. -/
theorem escapes_lossless (v : Bytes) :
    v.entityify.unentityify = v ∧ v.slashify.unslashify = v ∧
    (∀ registry n name m,
      eval registry (n + 1) ⟨name, v.entityify⟩ m =
        .done () { m with out := m.out.write v.entityify } ∧
      (m.out.write v.entityify).toBytes = m.out.toBytes ++ v.entityify) ∧
    (∀ (p : Processor) f name out,
      p.eval f ⟨name, v.entityify⟩ out =
        .done () ⟨p.state, ⟨f, []⟩, out.write v.entityify⟩) ∧
    (Registry.standard.lookup (utf8 "entityify") = some Builtin.entityify ∧
      Registry.standard.lookup (utf8 "slashify") = some Builtin.slashify) ∧
    ∀ ctx m,
      Program.run ctx Builtin.entityify m = ((m.argument ctx.eval 1).andThen fun a m =>
        .done .finished (m.write (a.getD []).entityify)) ∧
      Program.run ctx Builtin.slashify m = ((m.argument ctx.eval 1).andThen fun a m =>
        .done .finished (m.write (a.getD []).slashify)) := by
  refine ⟨v.unentityify_entityify, v.unslashify_slashify, fun registry n name m => ⟨?_, ?_⟩,
    fun p f name out => ?_, ⟨rfl, rfl⟩, fun ctx m => ⟨?_, ?_⟩⟩
  · exact v.isPlain_entityify.eval_eq registry n name m
  · exact Output.toBytes_write _ _
  · exact v.isPlain_entityify.eval_eq p.registry _ name _
  · exact Program.run_writeOf Bytes.entityify ctx m
  · exact Program.run_writeOf Bytes.slashify ctx m

end TildeText
