import TapeScript.Outcome

/-! The byte memory of a script: a fixed row of cells and a cursor that always stands on
one of them. Every move is checked before it happens, so a refused operation leaves
the tape as it was. -/

namespace TapeScript

structure Tape where
  cells : Array UInt8
  cursor : Nat
  cursor_lt : cursor < cells.size

namespace Tape

def blank (length : Nat) (h : 0 < length) : Tape :=
  ⟨Array.replicate length 0, 0, by simpa using h⟩

def length (t : Tape) : Nat := t.cells.size

def current (t : Tape) : UInt8 :=
  have := t.cursor_lt
  t.cells[t.cursor]

def setCurrent (byte : UInt8) : Tape → Tape
  | ⟨cells, cursor, h⟩ => ⟨cells.set cursor byte, cursor, by simpa using h⟩

def read (t : Tape) (i : Nat) : Except Fault UInt8 :=
  match t.cells[i]? with
  | some byte => .ok byte
  | none => .error (.outside i t.cells.size)

def write (i : Nat) (byte : UInt8) : Tape → Outcome Tape
  | ⟨cells, cursor, h⟩ =>
    if hi : i < cells.size then .ok ⟨cells.set i byte, cursor, by simpa using h⟩
    else .fault (.outside i cells.size) ⟨cells, cursor, h⟩

def moveTo (i : Nat) : Tape → Outcome Tape
  | ⟨cells, cursor, h⟩ =>
    if hi : i < cells.size then .ok ⟨cells, i, hi⟩
    else .fault (.outside i cells.size) ⟨cells, cursor, h⟩

/-- Moves the cursor by a number of cells, to the right if it is positive. -/
def shift (distance : Int) (t : Tape) : Outcome Tape :=
  let target := t.cursor + distance
  if target < 0 then .fault (.outside target t.length) t else t.moveTo target.toNat

@[simp] theorem length_blank (n : Nat) (h : 0 < n) : (blank n h).length = n := by
  simp [blank, length]

@[simp] theorem length_setCurrent (byte : UInt8) (t : Tape) :
    (t.setCurrent byte).length = t.length := by
  simp [setCurrent, length]

@[simp] theorem cursor_setCurrent (byte : UInt8) (t : Tape) :
    (t.setCurrent byte).cursor = t.cursor := rfl

@[simp] theorem current_setCurrent (byte : UInt8) (t : Tape) :
    (t.setCurrent byte).current = byte := by
  simp [setCurrent, current]

@[simp] theorem length_write (i : Nat) (byte : UInt8) (t : Tape) :
    (t.write i byte).state.length = t.length := by
  simp only [write]
  split <;> simp [length]

@[simp] theorem cursor_write (i : Nat) (byte : UInt8) (t : Tape) :
    (t.write i byte).state.cursor = t.cursor := by
  simp only [write]
  split <;> rfl

@[simp] theorem cells_moveTo (i : Nat) (t : Tape) : (t.moveTo i).state.cells = t.cells := by
  simp only [moveTo]
  split <;> rfl

@[simp] theorem cells_shift (d : Int) (t : Tape) : (t.shift d).state.cells = t.cells := by
  simp only [shift]
  split
  · rfl
  · exact cells_moveTo ..

end Tape

end TapeScript
