import TildeText.Bytes

/-!
Tokens of macro text: an opening fence, a run of tildes that may close an invocation, or any other
byte. Tokens lose nothing: written out one after the other they are the text.
-/

namespace TildeText

/-- A fence is `<` with the tildes after it (none, if it opens nothing). A run of tildes counts its
tildes and says whether `>` follows, which then belongs to it. -/
inductive Token
  | fence (tildes : Nat)
  | run (tildes : Nat) (closes : Bool)
  | byte (b : UInt8)
  deriving DecidableEq, Repr

namespace Token

def lt : UInt8 := 0x3c
def gt : UInt8 := 0x3e
def tilde : UInt8 := 0x7e

def spell : Token → Bytes
  | .fence n => lt :: List.replicate n tilde
  | .run n closes => List.replicate n tilde ++ if closes then [gt] else []
  | .byte b => [b]

def size : Token → Nat
  | .fence n => n + 1
  | .run n closes => n + if closes then 1 else 0
  | .byte _ => 1

def beforeTilde : List Token → List Token
  | .run n closes :: ts => .run (n + 1) closes :: ts
  | .byte b :: ts => if b = gt then .run 1 true :: ts else .run 1 false :: .byte b :: ts
  | ts => .run 1 false :: ts

/-- A `<` before a text that is already cut into tokens. It takes the tildes, but no `>`. -/
def beforeLt : List Token → List Token
  | .run n true :: ts => .fence n :: .byte gt :: ts
  | .run n false :: ts => .fence n :: ts
  | ts => .fence 0 :: ts

def before (b : UInt8) (ts : List Token) : List Token :=
  if b = tilde then beforeTilde ts
  else if b = lt then beforeLt ts
  else .byte b :: ts

def spellAll (ts : List Token) : Bytes := ts.flatMap spell

@[simp] theorem spellAll_nil : spellAll [] = [] := rfl

@[simp] theorem spellAll_cons (t : Token) (ts : List Token) :
    spellAll (t :: ts) = t.spell ++ spellAll ts := rfl

@[simp] theorem length_spell (t : Token) : t.spell.length = t.size := by
  cases t with
  | fence n => simp [spell, size]
  | run n closes => cases closes <;> simp [spell, size]
  | byte b => rfl

theorem spellAll_beforeTilde (ts : List Token) : spellAll (beforeTilde ts) = tilde :: spellAll ts := by
  fun_cases beforeTilde ts <;> simp_all [spell, List.replicate_succ]

theorem spellAll_beforeLt (ts : List Token) : spellAll (beforeLt ts) = lt :: spellAll ts := by
  fun_cases beforeLt ts <;> simp_all [spell]

theorem spellAll_before (b : UInt8) (ts : List Token) : spellAll (before b ts) = b :: spellAll ts := by
  fun_cases before b ts <;> simp_all [spell, spellAll_beforeTilde, spellAll_beforeLt]

end Token

def Bytes.tokens (s : Bytes) : List Token := s.foldr Token.before []

@[simp] theorem Bytes.spellAll_tokens (s : Bytes) : Token.spellAll s.tokens = s := by
  induction s with
  | nil => rfl
  | cons b s ih =>
    rw [Bytes.tokens] at ih ⊢
    rw [List.foldr_cons, Token.spellAll_before, ih]

/-- The number of open invocations after one more token. A close that matches nothing is passed
over. -/
def Token.depthAfter (depth : Nat) : Token → Nat
  | .fence 0 => depth
  | .fence (_ + 1) => depth + 1
  | .run _ true => depth - 1
  | _ => depth

def Bytes.isComplete (s : Bytes) : Bool := s.tokens.foldl Token.depthAfter 0 == 0

end TildeText
