import TapeScript.Tape
import Mathlib.Algebra.GroupWithZero.Nat
import Mathlib.Algebra.Ring.Int.Defs

/-! # Positions in machine words

A position on a tape is an unsigned word and a distance is a signed one, and what is reported is
a signed one again. As long as a tape is no longer than the signed words reach, moving in words
is the same as moving in integers. -/

namespace TapeScript

namespace Word

/-! ## Signed and unsigned words -/

variable {x : UInt64} {d : Int64}

/-- The nearest signed word. -/
def signed (x : UInt64) : Int64 :=
  if x ≤ Int64.maxValue.toUInt64 then x.toInt64 else Int64.maxValue

/-- The sum of an unsigned word and a signed one, if it is an unsigned word again. It wraps over
the end of the words exactly if the bits of the signed word do, read as an unsigned one, unless
that one is negative. -/
def sum? (x : UInt64) (d : Int64) : Option UInt64 :=
  if decide (x + d.toUInt64 < x) = decide (d < 0) then some (x + d.toUInt64) else none

/-- The sum of two signed words, or the last word on its way there. -/
def saturatingSum (a b : Int64) : Int64 :=
  Int64.ofInt (max Int64.minValue.toInt (min (a.toInt + b.toInt) Int64.maxValue.toInt))

theorem toInt_eq (d : Int64) :
    d.toInt = if d.toUInt64.toNat < 2 ^ 63 then (d.toUInt64.toNat : Int)
      else d.toUInt64.toNat - 2 ^ 64 := by
  have h := BitVec.toInt_eq_toNat_cond d.toBitVec
  change d.toInt = if 2 * d.toUInt64.toNat < 2 ^ 64 then (d.toUInt64.toNat : Int)
    else d.toUInt64.toNat - (2 ^ 64 : Nat) at h
  rw [h]
  split <;> split <;> omega

theorem toInt_toInt64 (h : x.toNat < 2 ^ 63) : x.toInt64.toInt = x.toNat := by
  rw [toInt_eq]
  exact if_pos h

theorem toInt_signed (x : UInt64) : (signed x).toInt = min (x.toNat : Int) Int64.maxValue.toInt := by
  have hmax : Int64.maxValue.toUInt64.toNat = 2 ^ 63 - 1 := rfl
  have hmax' : Int64.maxValue.toInt = 2 ^ 63 - 1 := rfl
  unfold signed
  split <;> rename_i h <;> rw [UInt64.le_iff_toNat_le, hmax] at h
  · rw [toInt_toInt64 (by omega), hmax']
    omega
  · rw [hmax']
    omega

theorem toInt_saturatingSum (a b : Int64) :
    (saturatingSum a b).toInt =
      max Int64.minValue.toInt (min (a.toInt + b.toInt) Int64.maxValue.toInt) := by
  have hmin : Int64.minValue.toInt = -2 ^ 63 := rfl
  have hmax : Int64.maxValue.toInt = 2 ^ 63 - 1 := rfl
  rw [saturatingSum, Int64.toInt_ofInt_of_le (by omega) (by omega)]

/-- Words are added exactly if the carry is that of the signed word. -/
theorem toNat_add_eq_iff (x : UInt64) (d : Int64) :
    ((x + d.toUInt64).toNat : Int) = x.toNat + d.toInt ↔ (x + d.toUInt64 < x ↔ d < 0) := by
  have hx := x.toNat_lt
  have hd := d.toUInt64.toNat_lt
  have hsum := UInt64.toNat_add x d.toUInt64
  have hint := toInt_eq d
  rw [UInt64.lt_iff_toNat_lt, Int64.lt_iff_toInt_lt, Int64.toInt_zero]
  split at hint <;> omega

theorem sum?_eq_some_iff {y : UInt64} : sum? x d = some y ↔ (y.toNat : Int) = x.toNat + d.toInt := by
  have hexact := toNat_add_eq_iff x d
  unfold sum?
  split <;> rename_i h <;> rw [decide_eq_decide, ← hexact] at h
  · rw [Option.some.injEq, ← h, Int.ofNat_inj, UInt64.toNat_inj, eq_comm]
  · have hy := y.toNat_lt
    have hd := d.toUInt64.toNat_lt
    have hsum := UInt64.toNat_add x d.toUInt64
    have hint := toInt_eq d
    constructor
    · rintro ⟨⟩
    · intro heq
      split at hint <;> omega

/-- Words that have no sum lie too far apart, or too far up. -/
theorem sum?_eq_none_iff :
    sum? x d = none ↔ (x.toNat : Int) + d.toInt < 0 ∨ 2 ^ 64 ≤ (x.toNat : Int) + d.toInt := by
  rw [Option.eq_none_iff_forall_ne_some]
  simp only [ne_eq, sum?_eq_some_iff]
  constructor
  · intro h
    refine Decidable.byContradiction fun hin => ?_
    have hlt : ((x.toNat : Int) + d.toInt).toNat < UInt64.size := by
      have hsize : UInt64.size = 2 ^ 64 := rfl
      omega
    have hnat := UInt64.toNat_ofNat_of_lt' hlt
    exact h (UInt64.ofNat ((x.toNat : Int) + d.toInt).toNat) (by omega)
  · intro h y hy
    have hlt := y.toNat_lt
    omega

end Word

/-- An unsigned word is never too low to be reported. -/
theorem Fault.outside_toNat (x : UInt64) (length : Nat) :
    outside x.toNat length = .outOfRange (min (x.toNat : Int) Int64.maxValue.toInt) length := by
  have hmin : Int64.minValue.toInt = -2 ^ 63 := rfl
  have hmax : Int64.maxValue.toInt = 2 ^ 63 - 1 := rfl
  rw [outside, reportable]
  congr 1
  omega

namespace Tape

/-! ## Moving in words -/

def moveToWord (i : UInt64) (t : Tape) : Outcome Tape :=
  if h : i.toNat < t.cells.size then .ok ⟨t.cells, i.toNat, h⟩
  else .fault (.outOfRange (Word.signed i).toInt t.length) t

def shiftByWord (distance : Int64) (t : Tape) : Outcome Tape :=
  match Word.sum? (UInt64.ofNat t.cursor) distance with
  | some i => t.moveToWord i
  | none =>
    let position := Word.saturatingSum (UInt64.ofNat t.cursor).toInt64 distance
    .fault (.outOfRange position.toInt t.length) t

theorem moveToWord_eq (i : UInt64) (t : Tape) : t.moveToWord i = t.moveTo i.toNat := by
  rw [moveToWord, Word.toInt_signed, moveTo, Fault.outside_toNat]
  rfl

variable {t : Tape}

theorem toNat_cursor (h : (t.length : Int) ≤ Int64.maxValue.toInt) :
    (UInt64.ofNat t.cursor).toNat = t.cursor ∧ t.cursor < 2 ^ 63 := by
  have hlt : t.cursor < t.length := t.cursor_lt
  have hmax : Int64.maxValue.toInt = 2 ^ 63 - 1 := rfl
  have hsize : UInt64.size = 2 ^ 64 := rfl
  exact ⟨UInt64.toNat_ofNat_of_lt' (by omega), by omega⟩

/-- A move that leaves the words goes below zero, and by no more than is reported. -/
theorem shiftByWord_eq (h : (t.length : Int) ≤ Int64.maxValue.toInt) (distance : Int64) :
    t.shiftByWord distance = t.shift distance.toInt := by
  obtain ⟨hcursor, hlt⟩ := toNat_cursor h
  have hlow := distance.le_toInt
  have hhigh := distance.toInt_lt
  cases hsum : Word.sum? (UInt64.ofNat t.cursor) distance with
  | some i =>
      have hi := Word.sum?_eq_some_iff.mp hsum
      rw [hcursor] at hi
      simp only [shiftByWord, hsum, moveToWord_eq, shift, ← hi]
      rw [if_neg (by omega), Int.toNat_natCast]
  | none =>
      have hmin : Int64.minValue.toInt = -2 ^ 63 := rfl
      have hmax : Int64.maxValue.toInt = 2 ^ 63 - 1 := rfl
      have hsigned : (UInt64.ofNat t.cursor).toInt64.toInt = t.cursor := by
        rw [Word.toInt_toInt64 (by omega), hcursor]
      have hout := Word.sum?_eq_none_iff.mp hsum
      rw [hcursor] at hout
      have hneg : (t.cursor : Int) + distance.toInt < 0 := by omega
      simp only [shiftByWord, hsum, shift, if_pos hneg, Word.toInt_saturatingSum, hsigned,
        Fault.outside]
      rw [Fault.reportable, Int.min_comm]

end Tape

end TapeScript
