/-! Seeded random words (xoshiro256++), and numbers below a bound drawn from them without
bias: a word in the incomplete last part of the range is rejected and the next one tried. -/

namespace TapeScript.Sample

structure Random where
  s0 : UInt64
  s1 : UInt64
  s2 : UInt64
  s3 : UInt64
  deriving Repr, DecidableEq

def rotateLeft (x : UInt64) (bits : UInt64) : UInt64 := x <<< bits ||| x >>> (64 - bits)

def rotateRight (x : UInt32) (bits : UInt32) : UInt32 :=
  x >>> bits ||| x <<< ((32 - bits) % 32)

namespace Random

def congruence (x : UInt64) : UInt64 := x * 6364136223846793005 + 11634580027462260723

/-- Spreads a seed over the state: each step of the congruence gives 32 bits, mixed by a
shift and a rotation. -/
def seedWords : Nat → UInt64 → List UInt32
  | 0, _ => []
  | count + 1, state =>
    let state := congruence state
    let mixed := (((state >>> 18) ^^^ state) >>> 27).toUInt32
    rotateRight mixed (state >>> 59).toUInt32 :: seedWords count state

/-- The low half first. -/
def join (low high : UInt32) : UInt64 := low.toUInt64 ||| high.toUInt64 <<< 32

def ofSeed (seed : UInt64) : Random :=
  match seedWords 8 seed with
  | [a, b, c, d, e, f, g, h] => ⟨join a b, join c d, join e f, join g h⟩
  | _ => ⟨0, 0, 0, 0⟩

def next (r : Random) : UInt64 × Random :=
  let word := rotateLeft (r.s0 + r.s3) 23 + r.s0
  let s2 := r.s2 ^^^ r.s0
  let s3 := r.s3 ^^^ r.s1
  (word, ⟨r.s0 ^^^ s3, r.s1 ^^^ s2, s2 ^^^ r.s1 <<< 17, rotateLeft s3 45⟩)

end Random

/-- Draws that fail once a single draw has rejected too many words. -/
abbrev Draw := StateT Random Option

namespace Draw

def word : Draw UInt64 := fun r => some r.next

/-- The next word of which the test makes something. -/
def firstSome {α : Type} (test : UInt64 → Option α) : Nat → Draw α
  | 0 => fun _ => none
  | tries + 1 => do
    match test (← word) with
    | some a => pure a
    | none => firstSome test tries

/-- Scales a number below `size` to one of `0, …, top`, unless its place within the step
that it falls into is not below `zone`. -/
def scale? (size top zone value : Nat) (h : value < size) : Option (Fin (top + 1)) :=
  if value * (top + 1) % size < zone then
    some ⟨value * (top + 1) / size,
      Nat.div_lt_of_lt_mul (Nat.mul_lt_mul_of_pos_right h (Nat.succ_pos top))⟩
  else none

/-- One of `0, …, top` from a whole word. The zone is the count of these numbers times the
greatest power of two that leaves it within a word. -/
def upTo (tries top : Nat) : Draw (Fin (top + 1)) :=
  let zone := (top + 1) <<< (63 - (top + 1).log2)
  firstSome (fun w => scale? UInt64.size top zone w.toNat w.toNat_lt_size) tries

/-- One of `0, …, top` from the high half of a word. The zone is the greatest multiple of
their count that half a word can hold. -/
def upToNarrow (tries top : Nat) : Draw (Fin (top + 1)) :=
  let zone := UInt32.size - (UInt32.size - (top + 1)) % (top + 1)
  firstSome (fun w =>
    let half := (w >>> 32).toUInt32
    scale? UInt32.size top zone half.toNat half.toNat_lt_size) tries

/-- The 53 high bits of a word. -/
def fraction : Draw Nat := do
  return ((← word) >>> 11).toNat

/-- One word in five, up to the rounding of a fifth of all words to a whole number. -/
def oneInFive : Draw Bool := do
  return (← word) < 3689348814741910528

def pick {α : Type} (tries : Nat) (choices : List α) (h : 0 < choices.length := by decide) :
    Draw α := do
  let i ← upTo tries (choices.length - 1)
  return choices.get ⟨i, by omega⟩

end Draw

end TapeScript.Sample
