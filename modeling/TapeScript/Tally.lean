/-! Counters gathered over a run. -/

namespace TapeScript

structure Tally where
  executed : Nat := 0
  recorded : Nat := 0
  loops : Nat := 0
  skipped : Nat := 0
  deriving Repr, DecidableEq

namespace Tally

def add (a b : Tally) : Tally :=
  ⟨a.executed + b.executed, a.recorded + b.recorded, a.loops + b.loops, a.skipped + b.skipped⟩

instance : Add Tally := ⟨add⟩

def sum (tallies : List Tally) : Tally := tallies.foldl (· + ·) {}

def text (t : Tally) : String :=
  s!"executed={t.executed} recorded={t.recorded} loops={t.loops} skipped={t.skipped}"

end Tally

end TapeScript
