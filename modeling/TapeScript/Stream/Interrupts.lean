/-! Calls that come to nothing and are repeated at once. Every call on a stream is
counted, and every call whose number is a multiple of the period is interrupted. -/

namespace TapeScript

/-- The period 0 interrupts nothing. The period 1 would interrupt every repetition too,
so no call would ever get through. -/
structure Interrupts where
  period : Nat := 0
  period_ne_one : period ≠ 1 := by decide

namespace Interrupts

def never : Interrupts := {}

def ofPeriod? (period : Nat) : Option Interrupts :=
  if h : period ≠ 1 then some ⟨period, h⟩ else none

def hits (i : Interrupts) (call : Nat) : Bool := i.period != 0 && call % i.period == 0

/-- How many calls were made once the next one has got through. -/
def callsAfter (i : Interrupts) (calls : Nat) : Nat :=
  if i.hits (calls + 1) then calls + 2 else calls + 1

/-- One repetition is enough: two calls in a row are never both interrupted. -/
theorem hits_callsAfter (i : Interrupts) (calls : Nat) :
    i.hits (i.callsAfter calls) = false := by
  have hne := i.period_ne_one
  unfold callsAfter
  split
  · next h =>
    simp only [hits, Bool.and_eq_true, bne_iff_ne, ne_eq, beq_iff_eq] at h
    obtain ⟨h0, hm⟩ := h
    have : (calls + 2) % i.period = 1 := by
      rw [show calls + 2 = (calls + 1) + 1 from rfl, Nat.add_mod, hm,
        Nat.mod_eq_of_lt (a := 1) (by omega)]
      simpa using Nat.mod_eq_of_lt (a := 1) (by omega)
    simp [hits, this]
  · next h => simpa using h

theorem callsAfter_of_hits {i : Interrupts} {calls : Nat} (h : i.hits (calls + 1)) :
    i.callsAfter calls = calls + 2 := if_pos h

theorem callsAfter_of_not_hits {i : Interrupts} {calls : Nat} (h : ¬i.hits (calls + 1)) :
    i.callsAfter calls = calls + 1 := if_neg h

/-- An interrupted call brings the one that gets through nearer. -/
theorem callsAfter_succ {i : Interrupts} {calls : Nat} (h : i.hits (calls + 1)) :
    i.callsAfter (calls + 1) = i.callsAfter calls := by
  have hnext := i.hits_callsAfter calls
  rw [callsAfter_of_hits h] at hnext ⊢
  exact callsAfter_of_not_hits (Bool.eq_false_iff.mp hnext)

theorem lt_callsAfter (i : Interrupts) (calls : Nat) : calls < i.callsAfter calls := by
  unfold callsAfter
  split <;> omega

end Interrupts

end TapeScript
