import TildeText.Builtin.Text
import TildeText.Proofs.Asking
import TildeText.Proofs.Characters
import TildeText.Proofs.Folds

namespace TildeText.Bytes

def IsWhole : Bytes → Prop
  | [] => False
  | b :: u => announced b = u.length ∧ u.all isContinuation = true

section Whole

variable {c : Bytes} {n : Nat}

theorem IsWhole.characters_append (h : c.IsWhole) (s : Bytes) :
    characters (c ++ s) = c :: characters s := by
  cases c with
  | nil => exact absurd h id
  | cons b u =>
    obtain ⟨hlength, hall⟩ := h
    have htake : (u ++ s).take (announced b) = u := List.take_left' hlength.symm
    have hle : announced b ≤ (u ++ s).length := by
      rw [List.length_append]
      omega
    rw [List.cons_append, characters_cons, attach_characters, htake, if_pos ⟨hle, hall⟩,
      List.drop_left' hlength.symm]

theorem characters_flatten_whole {cs : List Bytes} (h : ∀ c ∈ cs, c.IsWhole) :
    characters cs.flatten = cs := by
  induction cs with
  | nil => rfl
  | cons c cs ih =>
    obtain ⟨hc, hcs⟩ := List.forall_mem_cons.1 h
    rw [List.flatten_cons, hc.characters_append, ih hcs]

end Whole

section Encoded

theorem announced_lead :
    (∀ n < 0x80, announced n.toUInt8 = 0) ∧ (∀ n < 0x20, announced (0xc0 + n).toUInt8 = 1) ∧
    (∀ n < 0x10, announced (0xe0 + n).toUInt8 = 2) ∧
    ∀ n < 0x08, announced (0xf0 + n).toUInt8 = 3 := by
  decide +kernel

theorem isContinuation_low (n : Nat) : isContinuation (0x80 + n % 0x40).toUInt8 = true := by
  have h : ∀ k < 0x40, isContinuation (0x80 + k).toUInt8 = true := by decide +kernel
  exact h _ (Nat.mod_lt _ (by decide))

theorem isWhole_encodeNat (hn : n < 0x110000) : (encodeNat n).IsWhole := by
  obtain ⟨hone, htwo, hthree, hfour⟩ := announced_lead
  rw [encodeNat]
  split_ifs
  · exact ⟨hone n (by assumption), rfl⟩
  · refine ⟨htwo _ (by omega), ?_⟩
    simp only [List.all_cons, List.all_nil, isContinuation_low, Bool.and_self]
  · refine ⟨hthree _ (by omega), ?_⟩
    simp only [List.all_cons, List.all_nil, isContinuation_low, Bool.and_self]
  · refine ⟨hfour _ (by omega), ?_⟩
    simp only [List.all_cons, List.all_nil, isContinuation_low, Bool.and_self]

theorem isWhole_encode (code : Int) : (encode code).IsWhole := by
  rw [encode]
  split
  · rename_i h
    simp only [isScalar, Bool.and_eq_true, decide_eq_true_eq] at h
    exact isWhole_encodeNat (by omega)
  · exact isWhole_encodeNat (by decide)

theorem characters_encoded (codes : List Int) :
    characters (codes.flatMap encode) = codes.map encode := by
  rw [List.flatMap_def]
  refine characters_flatten_whole fun c hc => ?_
  obtain ⟨code, -, rfl⟩ := List.mem_map.1 hc
  exact isWhole_encode code

theorem isScalar_iff (code : Int) : isScalar code = true ↔ ∃ c : Char, code = c.toNat := by
  simp only [isScalar, Bool.and_eq_true, Bool.not_eq_true', Bool.and_eq_false_iff,
    decide_eq_true_eq, decide_eq_false_iff_not]
  constructor
  · intro h
    have hvalid : code.toNat.isValidChar := by
      rw [Nat.isValidChar]
      omega
    have hself : (Char.ofNatAux code.toNat hvalid).toNat = code.toNat := rfl
    exact ⟨Char.ofNatAux code.toNat hvalid, by omega⟩
  · rintro ⟨c, rfl⟩
    have hvalid : c.toNat.isValidChar := c.valid
    rw [Nat.isValidChar] at hvalid
    omega

theorem encodeNat_char (c : Char) : encodeNat c.toNat = String.utf8EncodeChar c := by
  have hvalid : c.toNat.isValidChar := c.valid
  have hval : c.val.toNat = c.toNat := rfl
  rw [Nat.isValidChar] at hvalid
  simp only [encodeNat, String.utf8EncodeChar, hval]
  generalize c.toNat = n at hvalid
  have hle : (n ≤ 127 ↔ n < 0x80) ∧ (n ≤ 2047 ↔ n < 0x800) ∧ (n ≤ 65535 ↔ n < 0x10000) := by
    omega
  simp only [hle, Nat.add_comm 0xc0, Nat.add_comm 0xe0, Nat.add_comm 0xf0, Nat.add_comm 0x80]
  -- in each range the lead byte has room for all the high bits of the code
  split_ifs
  · rfl
  · rw [Nat.mod_eq_of_lt (by omega : n / 64 < 32)]
  · rw [Nat.mod_eq_of_lt (by omega : n / 4096 < 16)]
  · rw [Nat.mod_eq_of_lt (by omega : n / 262144 < 8)]

theorem encode_char (c : Char) : encode c.toNat = String.utf8EncodeChar c := by
  rw [encode, if_pos ((isScalar_iff _).2 ⟨c, rfl⟩), Int.toNat_natCast, encodeNat_char]

theorem encode_of_not_char {code : Int} (h : ∀ c : Char, code ≠ c.toNat) :
    encode code = String.utf8EncodeChar (Char.ofNat 0xfffd) := by
  have hnot : ¬ isScalar code = true := fun hs => by
    obtain ⟨c, hc⟩ := (isScalar_iff code).1 hs
    exact h c hc
  rw [encode, if_neg hnot]
  exact encodeNat_char (Char.ofNat 0xfffd)

end Encoded

end TildeText.Bytes

namespace TildeText.Buffer

open Bytes

/-- A buffer that is built up from the characters with these codes. -/
def ofCodes (codes : List Int) : Buffer := codes.foldl appendScalar empty

theorem appendScalar_ofBytes (s : Bytes) (code : Int) :
    (ofBytes s).appendScalar code = ofBytes (s ++ encode code) := by
  rw [appendScalar, append]
  split
  · rename_i hempty
    rw [List.isEmpty_iff.1 hempty, List.append_nil]
  · rfl

theorem foldl_appendScalar (s : Bytes) (codes : List Int) :
    codes.foldl appendScalar (ofBytes s) = ofBytes (s ++ codes.flatMap encode) := by
  induction codes generalizing s with
  | nil => rw [List.foldl_nil, List.flatMap_nil, List.append_nil]
  | cons code codes ih =>
    rw [List.foldl_cons, appendScalar_ofBytes, ih, List.flatMap_cons, List.append_assoc]

theorem ofCodes_eq (codes : List Int) : ofCodes codes = ofBytes (codes.flatMap encode) :=
  foldl_appendScalar [] codes

theorem characters_ofCodes (codes : List Int) :
    characters (ofCodes codes).bytes = codes.map encode := by
  rw [ofCodes_eq]
  exact characters_encoded codes

theorem characterCount_ofCodes (codes : List Int) :
    characterCount (ofCodes codes).bytes = codes.length := by
  rw [characterCount, characters_ofCodes, List.length_map]

theorem substring?_ofCodes {codes : List Int} {start : Int} (h : start ≤ codes.length) (n : Int) :
    (ofCodes codes).substring? start n =
      some (ofCodes ((codes.drop start.toNat).take n.toNat)) := by
  rw [substring?_eq_some (by rwa [characterCount_ofCodes]), characterSlice, characters_ofCodes,
    ← List.map_drop, ← List.map_take, ← List.flatMap_def, ← ofCodes_eq]

end TildeText.Buffer

namespace TildeText

def Bytes.encodeAll (ks : List Int64) : Bytes := (ks.map Int64.toInt).flatMap encode

section Reading

variable {registry : Registry} {m m₁ m' : Machine} {t v : Bytes} {ts : List Bytes}
  {ks : List Int64}

theorem Machine.Evaluates.out (h : m.Evaluates registry t (.done v m₁)) (o : Output) :
    { m with out := o }.Evaluates registry t (.done v { m₁ with out := o }) := by
  obtain ⟨-, k, hk⟩ := h
  have hk : m.valueOf (eval registry k) t = .done v m₁ := hk
  refine ⟨by simp, k, ?_⟩
  simp only [valueOf_out, hk]
  rfl

theorem Machine.Reads.out (h : m.Reads registry ts ks m') (o : Output) :
    { m with out := o }.Reads registry ts ks { m' with out := o } := by
  induction h with
  | nil => exact .nil
  | cons ht hk _ ih => exact .cons (ht.out o) hk ih

theorem Machine.Reads.out_eq (h : m.Reads registry ts ks m') : m'.out = m.out := by
  induction h with
  | nil => rfl
  | cons ht _ _ ih => rw [ih, ht.out_eq]

theorem Machine.Reads.asks (h : m.Reads registry ts ks m') :
    ∀ {f : Frame} {i : Nat}, f.Unread i ts → ∃ n vs f', vs.map Bytes.number? = ks.map some ∧
      ∀ k, n ≤ k → (m.push f).Asks (eval registry k) (List.range' i ts.length) vs
        (m'.push f') := by
  induction h with
  | nil => exact fun {f i} _ => ⟨0, [], f, rfl, fun k _ => .nil⟩
  | @cons v k m₁ ts ks m' m t ht hk _ ih =>
    intro f i hf
    obtain ⟨n₁, h₁⟩ := ht.eventually
    obtain ⟨n₂, vs, f', hvs, h₂⟩ := ih (hf.remember v)
    refine ⟨max n₁ n₂, v :: vs, f', by rw [List.map_cons, List.map_cons, hvs, hk],
      fun j hj => ?_⟩
    have harg : (m.push f).argument (eval registry j) i =
        .done (some v) (m₁.push (f.remember i v)) := by
      rw [argument_unread hf.head, h₁ j (by omega)]
    exact .cons harg (h₂ j (by omega))

end Reading

namespace Builtin

variable {ctx : Context} {m m' : Machine} {ns : List Nat} {vs : List Bytes} {ks : List Int64}

theorem run_writeCharacter (hv : m.argument ctx.eval n = .done v m')
    (hk : Bytes.number? (v.getD []) = some k) (hcode : 0 ≤ k.toInt ∧ k.toInt ≤ 0x10ffff) :
    (writeCharacter n).run ctx m = .done () (m'.write (Bytes.encode k.toInt)) := by
  obtain ⟨m₁, hrun, -, hnil⟩ := (Machine.Asks.cons hv .nil).run_numberArg hk
  obtain rfl := hnil.eq_of_nil
  rw [writeCharacter, Program.run_seq, hrun, Outcome.andThen, if_pos hcode]
  rfl

theorem run_writeCharacters (h : m.Asks ctx.eval ns vs m')
    (hvs : vs.map Bytes.number? = ks.map some)
    (hcodes : ∀ k ∈ ks, 0 ≤ k.toInt ∧ k.toInt ≤ 0x10ffff) (s : Bytes) :
    (ns.forM writeCharacter).run ctx (m.write s) =
      .done () (m'.write (s ++ Bytes.encodeAll ks)) := by
  induction h generalizing ks s with
  | nil =>
    obtain rfl : ks = [] := by simpa using hvs.symm
    rw [Bytes.encodeAll, List.map_nil, List.flatMap_nil, List.append_nil]
    rfl
  | @cons m₁ ns vs m' m n v hn _ ih =>
    cases ks with
    | nil => cases hvs
    | cons k ks =>
      rw [List.map_cons, List.map_cons, List.cons.injEq] at hvs
      obtain ⟨hk, hvs⟩ := hvs
      obtain ⟨hcode, hcodes⟩ := List.forall_mem_cons.1 hcodes
      have hn : (m.write s).argument ctx.eval n = .done v (m₁.write s) := by
        rw [Machine.argument_write, hn, Outcome.mapMachine]
      have hforM : (n :: ns).forM writeCharacter =
          writeCharacter n >>= fun _ => ns.forM writeCharacter := rfl
      have hencode : Bytes.encodeAll (k :: ks) = Bytes.encode k.toInt ++ Bytes.encodeAll ks := rfl
      rw [hforM, Program.run_seq, run_writeCharacter hn hk hcode, Outcome.andThen,
        Machine.write_write, ih hvs hcodes, hencode, List.append_assoc]

theorem run_unicode (ctx : Context)
    (h : m.Asks ctx.eval (List.range' 1 (m.scope.frame.size - 1)) vs m')
    (hvs : vs.map Bytes.number? = ks.map some)
    (hcodes : ∀ k ∈ ks, 0 ≤ k.toInt ∧ k.toInt ≤ 0x10ffff) :
    Program.run ctx unicode m = .done .finished (m'.write (Bytes.encodeAll ks)) := by
  have hrun := run_writeCharacters h hvs hcodes []
  have hself : m.write [] = m := rfl
  rw [hself, List.nil_append] at hrun
  rw [unicode, Program.run_seq, Program.run_argsFrom_eq, Outcome.andThen, Program.run_seq, hrun]
  rfl

theorem run_length (ctx : Context) (h : m.Asks ctx.eval [1] [v] m') :
    Program.run ctx length m =
      .done .finished (m'.write (Bytes.decimalNat (Bytes.characterCount v))) := by
  obtain ⟨m₁, hrun, -, hnil⟩ := h.run_arg
  obtain rfl := hnil.eq_of_nil
  rw [length, Program.run_seq, hrun]
  rfl

end Builtin

section Nested

variable {registry : Registry} {c d : Call} {m m₁ m₂ m' : Machine} {title t : Bytes}
  {ts : List Bytes} {ks : List Int64}

theorem Call.WellFenced.evaluates_unicode (hc : c.WellFenced)
    (hb : registry.lookup (utf8 "unicode") = some Builtin.unicode) (hargs : c.args = title :: ts)
    (htitle : m.Evaluates registry title (.done (utf8 "unicode") m₁))
    (hreads : m₁.Reads registry ts ks m')
    (hcodes : ∀ k ∈ ks, 0 ≤ k.toInt ∧ k.toInt ≤ 0x10ffff) :
    m.Evaluates registry c.render (.done (Bytes.encodeAll ks) m') := by
  have hout : m'.out = m.out := hreads.out_eq.trans htitle.out_eq
  have hframe := Frame.Unread.ofCall (c := c.atStart) hargs ⟨[], c.render⟩ (utf8 "unicode")
  obtain ⟨n₁, h₁⟩ :=
    Invocation.carryOut_titled (c := c.atStart) hargs (htitle.out {}) rfl hb
  obtain ⟨n₂, vs, f', hvs, h₂⟩ := (hreads.out {}).asks hframe
  let k := max n₁ n₂ + 1
  have hasks := h₂ k (by omega)
  rw [← hframe.size_sub] at hasks
  have hrun := Builtin.run_unicode (registry.context (eval registry k)) hasks hvs hcodes
  refine ⟨by simp, k + 1, ?_⟩
  have hwritten : (({} : Output).write (Bytes.encodeAll ks)).toBytes = Bytes.encodeAll ks :=
    Output.toBytes_write _ _
  simp only [Machine.valueOf]
  rw [hc.eval_eq, h₁ k (by omega), Invocation.builtin_succ, hrun, ← hout]
  exact congrArg (Outcome.done · m') hwritten

theorem Invocation.reached_length (hb : registry.lookup (utf8 "length") = some Builtin.length)
    (hargs : d.args = [title, t]) (htitle : m.Evaluates registry title (.done (utf8 "length") m₁))
    (ht : m₁.Evaluates registry t (.done v m')) (src : Source) :
    Outcome.Reached (fun k => carryOut registry k (eval registry k) src d m)
      (.done () (m'.write (Bytes.decimalNat (Bytes.characterCount v)))) := by
  have hframe := Frame.Unread.ofCall hargs src (utf8 "length")
  obtain ⟨n₁, h₁⟩ := carryOut_titled hargs htitle rfl hb
  obtain ⟨n₂, h₂⟩ := ht.eventually
  let k := max n₁ n₂ + 1
  have harg : (m₁.push ((d.frame src).remember 0 (utf8 "length"))).argument (eval registry k) 1 =
      .done (some v) (m'.push (((d.frame src).remember 0 (utf8 "length")).remember 1 v)) := by
    rw [Machine.argument_unread hframe.head, h₂ k (by omega)]
  have hrun := Builtin.run_length (registry.context (eval registry k))
    (Machine.Asks.cons harg .nil)
  refine ⟨by simp, k, ?_⟩
  simp only
  rw [h₁ k (by omega), builtin_succ, hrun]
  rfl

end Nested

/-- Encoded characters are counted and taken one by one. A code has the form that its character has
in strings, and one that is not the code of a character has the form of the replacement character.
A buffer that is built up from codes has as many characters as there are codes, and a part of it is
the buffer that is built up from that part of the codes. Just so an invocation that writes the
characters with some codes has a text as its value that is counted as that many characters. -/
theorem encoded_indexed (codes : List Int) (registry : Registry)
    (hunicode : registry.lookup (utf8 "unicode") = some Builtin.unicode)
    (hlength : registry.lookup (utf8 "length") = some Builtin.length) :
    (∀ c : Char, Bytes.encode c.toNat = String.utf8EncodeChar c) ∧
    (∀ code : Int, (∀ c : Char, code ≠ c.toNat) →
      Bytes.encode code = String.utf8EncodeChar (Char.ofNat 0xfffd)) ∧
    Bytes.characters (Buffer.ofCodes codes).bytes = codes.map Bytes.encode ∧
    Bytes.characterCount (Buffer.ofCodes codes).bytes = codes.length ∧
    (∀ start n : Int, 0 ≤ start → start ≤ codes.length →
      (Buffer.ofCodes codes).substring? start n =
        some (Buffer.ofCodes ((codes.drop start.toNat).take n.toNat))) ∧
    ∀ (c d : Call) (title title' : Bytes) (ts : List Bytes) (ks : List Int64)
      (m m₁ m₂ m' : Machine),
      c.WellFenced → c.args = title :: ts → d.args = [title', c.render] →
      m.Evaluates registry title' (.done (utf8 "length") m₁) →
      m₁.Evaluates registry title (.done (utf8 "unicode") m₂) →
      m₂.Reads registry ts ks m' → (∀ k ∈ ks, 0 ≤ k.toInt ∧ k.toInt ≤ 0x10ffff) →
      m₁.Evaluates registry c.render (.done (Buffer.ofCodes (ks.map Int64.toInt)).bytes m') ∧
      ∀ src, Outcome.Reached (fun k => Invocation.carryOut registry k (eval registry k) src d m)
        (.done () (m'.write (Bytes.decimalNat ks.length))) := by
  refine ⟨Bytes.encode_char, fun code => Bytes.encode_of_not_char, Buffer.characters_ofCodes codes,
    Buffer.characterCount_ofCodes codes, fun start n _ hle => Buffer.substring?_ofCodes hle n, ?_⟩
  intro c d title title' ts ks m m₁ m₂ m' hc hcargs hdargs htitle' htitle hreads hcodes
  have hvalue := hc.evaluates_unicode hunicode hcargs htitle hreads hcodes
  have hbytes : (Buffer.ofCodes (ks.map Int64.toInt)).bytes = Bytes.encodeAll ks := by
    rw [Buffer.ofCodes_eq]
    rfl
  have hcount := Buffer.characterCount_ofCodes (ks.map Int64.toInt)
  rw [List.length_map] at hcount
  rw [← hbytes] at hvalue
  refine ⟨hvalue, fun src => ?_⟩
  rw [← hcount]
  exact Invocation.reached_length hlength hdargs htitle' hvalue src

def Call.fiveCodes : Call :=
  ⟨0, 2, [utf8 "unicode", utf8 "97", utf8 "233", utf8 "8364", utf8 "128512", utf8 "55296"]⟩

def Call.fiveCounted : Call := ⟨0, 2, [utf8 "length", Call.fiveCodes.render]⟩

theorem encoded_indexed_five :
    Call.fiveCodes.WellFenced ∧
    Machine.bare.Evaluates .standard Call.fiveCodes.render (.done (utf8 "aé€😀\uFFFD") .bare) ∧
    Outcome.Reached (fun k => Invocation.carryOut .standard k (eval .standard k) { bytes := [] }
      .fiveCounted .bare) (.done () (Machine.bare.write (utf8 "5"))) ∧
    (Buffer.ofCodes [97, -1, 128512, 55296, 1114112]).substring? 1 2 =
      some (Buffer.ofCodes [-1, 128512]) := by
  have hplain (t : Bytes) (h : Token.lt ∉ t ∧ Token.tilde ∉ t) :
      Machine.bare.Evaluates .standard t (.done t .bare) :=
    (Bytes.isPlain_of_free h).evaluates .standard .bare
  have hc : Call.fiveCodes.WellFenced :=
    ⟨by decide, by decide, _, _, rfl, by decide, by decide, by decide⟩
  have hreads : Machine.bare.Reads .standard
      [utf8 "97", utf8 "233", utf8 "8364", utf8 "128512", utf8 "55296"]
      [97, 233, 8364, 128512, 55296] .bare :=
    .cons (hplain _ (by decide)) rfl (.cons (hplain _ (by decide)) rfl
      (.cons (hplain _ (by decide)) rfl (.cons (hplain _ (by decide)) rfl
        (.cons (hplain _ (by decide)) rfl .nil))))
  obtain ⟨-, -, -, -, hpart, hcall⟩ :=
    encoded_indexed [97, -1, 128512, 55296, 1114112] .standard rfl rfl
  obtain ⟨hvalue, hcount⟩ := hcall .fiveCodes .fiveCounted _ _ _ _ .bare .bare .bare .bare hc rfl
    rfl (hplain _ (by decide)) (hplain _ (by decide)) hreads (by simp)
  have hlength : (1 : Int) ≤ ([97, -1, 128512, 55296, 1114112] : List Int).length := by
    simp only [List.length_cons, List.length_nil]
    omega
  exact ⟨hc, hvalue, hcount _, hpart 1 2 (by omega) hlength⟩

end TildeText
