import TapeScript.Proofs.Tape.Words
import TapeScript.Proofs.Engine.Requests

/-! # What is asked of a tape

A request that concerns a cell is granted exactly if the tape has the cell, and a refused one
leaves the tape as it was. No request changes the length of the tape, whatever came before. -/

namespace TapeScript

namespace Tape

variable {t : Tape} {i : Nat}

/-- The byte is written to the cell, and nothing else changes. -/
structure Writes (t : Tape) (i : Nat) (byte : UInt8) (t' : Tape) : Prop where
  cursor : t'.cursor = t.cursor
  cells : ∀ j, t'.cells[j]? = if j = i then some byte else t.cells[j]?

/-- The cursor goes there, and nothing else changes. -/
structure Moves (t : Tape) (target : Int) (t' : Tape) : Prop where
  cells : t'.cells = t.cells
  cursor : (t'.cursor : Int) = target

/-! ## Operations on a tape -/

theorem read_of_lt (h : i < t.length) :
    ∃ byte, t.read i = .ok byte ∧ t.cells[i]? = some byte := by
  have hbyte : t.cells[i]? = some t.cells[i] := Array.getElem?_eq_getElem h
  exact ⟨t.cells[i], by rw [read, hbyte], hbyte⟩

theorem read_of_le (h : t.length ≤ i) : t.read i = .error (.outside i t.length) := by
  rw [read, Array.getElem?_eq_none h]
  rfl

theorem write_of_lt (h : i < t.length) (byte : UInt8) :
    ∃ t', t.write i byte = .ok t' ∧ t.Writes i byte t' := by
  obtain ⟨cells, cursor, hcursor⟩ := t
  have hi : i < cells.size := h
  refine ⟨_, dif_pos hi, rfl, fun j => ?_⟩
  dsimp only
  rw [Array.getElem?_set]
  simp only [eq_comm]

theorem write_of_le (h : t.length ≤ i) (byte : UInt8) :
    t.write i byte = .fault (.outside i t.length) t :=
  dif_neg (Nat.not_lt.mpr h)

theorem setCurrent_writes (byte : UInt8) (t : Tape) :
    t.Writes t.cursor byte (t.setCurrent byte) := by
  obtain ⟨cells, cursor, hcursor⟩ := t
  refine ⟨rfl, fun j => ?_⟩
  dsimp only [setCurrent]
  rw [Array.getElem?_set]
  simp only [eq_comm]

theorem moveTo_of_lt (h : i < t.length) : ∃ t', t.moveTo i = .ok t' ∧ t.Moves i t' :=
  ⟨_, dif_pos h, rfl, rfl⟩

theorem moveTo_of_le (h : t.length ≤ i) : t.moveTo i = .fault (.outside i t.length) t :=
  dif_neg (Nat.not_lt.mpr h)

/-- The cursor moves by the exact distance. -/
theorem shift_of_inside {distance : Int} (hlow : 0 ≤ t.cursor + distance)
    (hhigh : t.cursor + distance < t.length) :
    ∃ t', t.shift distance = .ok t' ∧ t.Moves (t.cursor + distance) t' := by
  obtain ⟨t', hmove, hmoves⟩ := moveTo_of_lt (t := t) (i := (t.cursor + distance).toNat) (by omega)
  refine ⟨t', ?_, ?_⟩
  · rw [shift, if_neg (Int.not_lt.mpr hlow), hmove]
  · rwa [Int.toNat_of_nonneg hlow] at hmoves

theorem shift_of_outside {distance : Int}
    (h : ¬(0 ≤ t.cursor + distance ∧ t.cursor + distance < t.length)) :
    t.shift distance = .fault (.outside (t.cursor + distance) t.length) t := by
  rw [shift]
  by_cases hneg : t.cursor + distance < 0
  · rw [if_pos hneg]
  · have hle : t.length ≤ (t.cursor + distance).toNat := by omega
    rw [if_neg hneg, moveTo_of_le hle, Int.toNat_of_nonneg (Int.not_lt.mp hneg)]

end Tape

namespace Device

variable {d : Device}

/-! ## Requests -/

/-- The request concerns the cell at `target`. It is granted if the tape has the cell. If not,
nothing happens and the position is reported, or the greatest that can be. -/
def Checks (d : Device) (request : Request) (target : Int)
    (granted : request.Answer → Tape → Prop) : Prop :=
  if 0 ≤ target ∧ target < d.tape.length then
    ∃ answer tape, d.perform request = (.ok answer, { d with tape }) ∧ granted answer tape
  else
    d.perform request = (.error (.outOfRange (min target Int64.maxValue.toInt) d.tape.length), d)

theorem checks_read (d : Device) (i : UInt64) :
    d.Checks (.read i.toNat) i.toNat fun (byte : UInt8) tape =>
      tape = d.tape ∧ d.tape.cells[i.toNat]? = some byte := by
  unfold Checks
  split <;> rename_i h
  · obtain ⟨byte, hread, hbyte⟩ := Tape.read_of_lt (t := d.tape) (i := i.toNat) (by omega)
    exact ⟨byte, d.tape, Prod.ext hread rfl, rfl, hbyte⟩
  · have hread := Tape.read_of_le (t := d.tape) (i := i.toNat) (by omega)
    rw [Fault.outside_toNat] at hread
    exact Prod.ext hread rfl

theorem checks_write (d : Device) (i : UInt64) (byte : UInt8) :
    d.Checks (.write i.toNat byte) i.toNat fun _ tape => d.tape.Writes i.toNat byte tape := by
  unfold Checks
  split <;> rename_i h
  · obtain ⟨tape, hwrite, hwrites⟩ :=
      Tape.write_of_lt (t := d.tape) (i := i.toNat) (by omega) byte
    exact ⟨(), tape, congrArg (withTape · d.source d.sink) hwrite, hwrites⟩
  · have hwrite := Tape.write_of_le (t := d.tape) (i := i.toNat) (by omega) byte
    rw [Fault.outside_toNat] at hwrite
    exact congrArg (withTape · d.source d.sink) hwrite

theorem checks_moveTo (d : Device) (i : UInt64) :
    d.Checks (.moveTo i.toNat) i.toNat fun _ tape => d.tape.Moves i.toNat tape := by
  unfold Checks
  split <;> rename_i h
  · obtain ⟨tape, hmove, hmoves⟩ := Tape.moveTo_of_lt (t := d.tape) (i := i.toNat) (by omega)
    exact ⟨(), tape, congrArg (withTape · d.source d.sink) hmove, hmoves⟩
  · have hmove := Tape.moveTo_of_le (t := d.tape) (i := i.toNat) (by omega)
    rw [Fault.outside_toNat] at hmove
    exact congrArg (withTape · d.source d.sink) hmove

/-- No distance leads so far below zero that this could not be reported. -/
theorem checks_shift (d : Device) (distance : Int64) :
    d.Checks (.shift distance.toInt) (d.tape.cursor + distance.toInt) fun _ tape =>
      d.tape.Moves (d.tape.cursor + distance.toInt) tape := by
  unfold Checks
  split <;> rename_i h
  · obtain ⟨tape, hshift, hmoves⟩ := Tape.shift_of_inside h.1 h.2
    exact ⟨(), tape, congrArg (withTape · d.source d.sink) hshift, hmoves⟩
  · have hlow := distance.le_toInt
    have hmin : Int64.minValue.toInt = -2 ^ 63 := rfl
    have hmax : Int64.maxValue.toInt = 2 ^ 63 - 1 := rfl
    have hreported : Fault.reportable (d.tape.cursor + distance.toInt) =
        min (d.tape.cursor + distance.toInt) Int64.maxValue.toInt := by
      rw [Fault.reportable]
      omega
    have hshift := Tape.shift_of_outside h
    rw [Fault.outside, hreported] at hshift
    exact congrArg (withTape · d.source d.sink) hshift

theorem tape_withTape (o : Outcome Tape) (source : Source) (sink : Sink) :
    (withTape o source sink).2.tape = o.state := by
  cases o <;> rfl

theorem refused_withTape {o : Outcome Tape} {t : Tape} {source : Source} {sink : Sink}
    {cause : Fault} (ho : (∃ t', o = .ok t') ∨ ∃ cause, o = .fault cause t)
    (h : (withTape o source sink).1 = .error cause) : (withTape o source sink).2.tape = t := by
  obtain ⟨t', rfl⟩ | ⟨cause', rfl⟩ := ho
  · cases h
  · rfl

/-- A refused request leaves the tape as it was. -/
theorem tape_of_refused (d : Device) (request : Request) {cause : Fault}
    (h : (d.perform request).1 = .error cause) : (d.perform request).2.tape = d.tape := by
  cases request with
  | current | cursor | length | read i | receive => rfl
  | setCurrent byte => cases h
  | send byte =>
      rw [perform_send]
      cases d.sink.write byte <;> rfl
  | write i byte =>
      refine refused_withTape ?_ h
      refine (Nat.lt_or_ge i d.tape.length).imp (fun hlt => ?_) fun hge => ?_
      · exact (Tape.write_of_lt hlt byte).imp fun _ => And.left
      · exact ⟨_, Tape.write_of_le hge byte⟩
  | moveTo i =>
      refine refused_withTape ?_ h
      refine (Nat.lt_or_ge i d.tape.length).imp (fun hlt => ?_) fun hge => ?_
      · exact (Tape.moveTo_of_lt hlt).imp fun _ => And.left
      · exact ⟨_, Tape.moveTo_of_le hge⟩
  | shift distance =>
      refine refused_withTape ?_ h
      refine (Decidable.em (0 ≤ d.tape.cursor + distance ∧
        d.tape.cursor + distance < d.tape.length)).imp (fun hin => ?_) fun hout => ?_
      · exact (Tape.shift_of_inside hin.1 hin.2).imp fun _ => And.left
      · exact ⟨_, Tape.shift_of_outside hout⟩

theorem length_perform (d : Device) (request : Request) :
    (d.perform request).2.tape.length = d.tape.length := by
  cases request with
  | current | cursor | length | read i | receive => rfl
  | setCurrent byte => exact Tape.length_setCurrent byte d.tape
  | send byte =>
      rw [perform_send]
      cases d.sink.write byte <;> rfl
  | write i byte =>
      rw [perform, tape_withTape]
      exact Tape.length_write i byte d.tape
  | moveTo i =>
      rw [perform, tape_withTape]
      exact congrArg Array.size (Tape.cells_moveTo i d.tape)
  | shift distance =>
      rw [perform, tape_withTape]
      exact congrArg Array.size (Tape.cells_shift distance d.tape)

/-! ## Any number of requests -/

/-- The device behind all the requests, granted or refused. -/
def performAll (requests : List Request) (d : Device) : Device :=
  requests.foldl (fun d request => (d.perform request).2) d

theorem length_performAll (requests : List Request) (d : Device) :
    (d.performAll requests).tape.length = d.tape.length := by
  induction requests generalizing d with
  | nil => rfl
  | cons request requests ih => exact (ih _).trans (d.length_perform request)

/-- Positions are unsigned words and distances signed ones. -/
structure Exact (d : Device) : Prop where
  read (i : UInt64) : d.Checks (.read i.toNat) i.toNat fun (byte : UInt8) tape =>
    tape = d.tape ∧ d.tape.cells[i.toNat]? = some byte
  write (i : UInt64) (byte : UInt8) : d.Checks (.write i.toNat byte) i.toNat fun _ tape =>
    d.tape.Writes i.toNat byte tape
  moveTo (i : UInt64) : d.Checks (.moveTo i.toNat) i.toNat fun _ tape =>
    d.tape.Moves i.toNat tape
  shift (distance : Int64) :
    d.Checks (.shift distance.toInt) (d.tape.cursor + distance.toInt) fun _ tape =>
      d.tape.Moves (d.tape.cursor + distance.toInt) tape
  moveToWord (i : UInt64) : d.tape.moveToWord i = d.tape.moveTo i.toNat
  shiftByWord (distance : Int64) : d.tape.shiftByWord distance = d.tape.shift distance.toInt
  current : ∃ byte, d.perform .current = (.ok byte, d) ∧
    d.tape.cells[d.tape.cursor]? = some byte
  setCurrent (byte : UInt8) : ∃ tape, d.perform (.setCurrent byte) = (.ok (), { d with tape }) ∧
    d.tape.Writes d.tape.cursor byte tape
  receive : (d.perform .receive).2.tape = d.tape
  send (byte : UInt8) : (d.perform (.send byte)).2.tape = d.tape
  refused (request : Request) {cause : Fault} (h : (d.perform request).1 = .error cause) :
    (d.perform request).2.tape = d.tape

theorem exact_of_length_le (h : (d.tape.length : Int) ≤ Int64.maxValue.toInt) : d.Exact where
  read := d.checks_read
  write := d.checks_write
  moveTo := d.checks_moveTo
  shift := d.checks_shift
  moveToWord i := d.tape.moveToWord_eq i
  shiftByWord := Tape.shiftByWord_eq h
  current := ⟨_, rfl, Array.getElem?_eq_getElem d.tape.cursor_lt⟩
  setCurrent byte := ⟨_, rfl, d.tape.setCurrent_writes byte⟩
  receive := rfl
  send byte := by
    rw [perform_send]
    cases d.sink.write byte <;> rfl
  refused := d.tape_of_refused

/-- Behind any requests a tape has its length and its cursor stands on it, and the next request
is granted or refused by exact arithmetic, changes what it should and nothing else. -/
theorem requests_exact (length : Nat) (hl : 0 < length)
    (hmax : (length : Int) ≤ Int64.maxValue.toInt) (source : Source) (sink : Sink)
    (requests : List Request) :
    let d := performAll requests ⟨.blank length hl, source, sink⟩
    d.tape.length = length ∧ d.tape.cursor < length ∧ d.Exact := by
  intro d
  have hlength : d.tape.length = length :=
    (length_performAll requests _).trans (Tape.length_blank length hl)
  have hcursor : d.tape.cursor < d.tape.length := d.tape.cursor_lt
  exact ⟨hlength, hlength ▸ hcursor, exact_of_length_le (hlength ▸ hmax)⟩

/-- The least distance is refused behind one that is granted. -/
theorem requests_exact_least_distance :
    let d := performAll [.shift 2, .shift Int64.minValue.toInt]
      ⟨.blank 3 (by decide), .ofBytes [], {}⟩
    0 < 3 ∧ (3 : Int) ≤ Int64.maxValue.toInt ∧ d.tape.cursor = 2 ∧ d.tape.length = 3 ∧
      d.tape.cursor < 3 ∧ d.Exact :=
  ⟨by decide, by decide, rfl, requests_exact 3 (by decide) (by decide) (.ofBytes []) {}
    [.shift 2, .shift Int64.minValue.toInt]⟩

end Device

end TapeScript
