import TapeScript.Proofs.Builtin
import TapeScript.Proofs.Engine.Requests
import TapeScript.Proofs.Run.Lockstep

/-! # Longer tapes

Commands made of elementary actions do not see how long the tape is, unless a request is refused
because it is too short. -/

namespace TapeScript

open Outcome

/-- The operation was refused because the tape is too short for it. -/
def Outcome.OutOfRange {σ : Type} (o : Outcome σ) : Prop :=
  ∃ position length s, o = .fault (.outOfRange position length) s

/-! ## Tapes -/

namespace Tape

/-- The tape with so many zero cells more behind its last one. -/
def lengthened (k : Nat) (t : Tape) : Tape :=
  ⟨t.cells ++ Array.replicate k 0, t.cursor, by
    rw [Array.size_append]
    exact Nat.lt_add_right _ t.cursor_lt⟩

variable {k i : Nat} {byte : UInt8} {t : Tape}

theorem blank_lengthened {n : Nat} (h : 0 < n) (h' : 0 < n + k) :
    blank (n + k) h' = (blank n h).lengthened k := by
  simp [blank, lengthened]

@[simp] theorem current_lengthened (k : Nat) (t : Tape) :
    (t.lengthened k).current = t.current := by
  simp [current, lengthened, Array.getElem_append_left t.cursor_lt]

theorem setCurrent_lengthened (k : Nat) (byte : UInt8) (t : Tape) :
    (t.lengthened k).setCurrent byte = (t.setCurrent byte).lengthened k := by
  obtain ⟨cells, cursor, h⟩ := t
  simp [setCurrent, lengthened, Array.set_append_left h]

theorem read_lengthened (k i : Nat) (t : Tape) :
    (∃ position length, t.read i = .error (.outOfRange position length)) ∨
      (t.lengthened k).read i = t.read i := by
  cases hi : t.cells[i]? with
  | none => exact .inl ⟨_, _, by rw [read, hi]; rfl⟩
  | some byte =>
      have hlt : i < t.cells.size := (Array.getElem?_eq_some_iff.mp hi).1
      simp [read, lengthened, Array.getElem?_append_left hlt, hi]

theorem write_lengthened (k i : Nat) (byte : UInt8) (t : Tape) :
    (t.write i byte).OutOfRange ∨
      (t.lengthened k).write i byte = (t.write i byte).map (lengthened k) := by
  obtain ⟨cells, cursor, h⟩ := t
  by_cases hi : i < cells.size
  · have hi' : i < cells.size + k := Nat.lt_add_right k hi
    simp [write, lengthened, hi, hi', Outcome.map, Array.set_append_left hi]
  · exact .inl ⟨_, _, _, dif_neg hi⟩

theorem moveTo_lengthened (k i : Nat) (t : Tape) :
    (t.moveTo i).OutOfRange ∨ (t.lengthened k).moveTo i = (t.moveTo i).map (lengthened k) := by
  obtain ⟨cells, cursor, h⟩ := t
  by_cases hi : i < cells.size
  · have hi' : i < cells.size + k := Nat.lt_add_right k hi
    simp [moveTo, lengthened, hi, hi', Outcome.map]
  · exact .inl ⟨_, _, _, dif_neg hi⟩

theorem shift_lengthened (k : Nat) (distance : Int) (t : Tape) :
    (t.shift distance).OutOfRange ∨
      (t.lengthened k).shift distance = (t.shift distance).map (lengthened k) := by
  by_cases hneg : t.cursor + distance < 0
  · exact .inl ⟨_, _, _, if_pos hneg⟩
  · have hneg' : ¬((t.lengthened k).cursor + distance < 0) := hneg
    simp only [shift, if_neg hneg, if_neg hneg']
    exact moveTo_lengthened k _ t

end Tape

/-! ## Requests and actions -/

namespace Device

def lengthened (k : Nat) (d : Device) : Device := { d with tape := d.tape.lengthened k }

theorem withTape_lengthened {k : Nat} {o o' : Outcome Tape}
    (h : o.OutOfRange ∨ o' = o.map (Tape.lengthened k)) (source : Source) (sink : Sink) :
    (∃ position length, (withTape o source sink).1 = .error (.outOfRange position length)) ∨
      withTape o' source sink =
        ((withTape o source sink).1, (withTape o source sink).2.lengthened k) := by
  rcases h with ⟨position, length, tape, rfl⟩ | rfl
  · exact .inl ⟨position, length, rfl⟩
  · cases o <;> exact .inr rfl

/-- A request that does not ask for the length is refused, or is answered as on the longer
tape. -/
theorem perform_lengthened {request : Request} (h : request ≠ .length) (k : Nat) (d : Device) :
    (∃ position length, (d.perform request).1 = .error (.outOfRange position length)) ∨
      (d.lengthened k).perform request =
        ((d.perform request).1, (d.perform request).2.lengthened k) := by
  obtain ⟨tape, source, sink⟩ := d
  cases request with
  | current =>
      refine .inr ?_
      rw [perform, perform, lengthened, Tape.current_lengthened]
  | cursor => exact .inr rfl
  | length => exact absurd rfl h
  | read i =>
      refine (tape.read_lengthened k i).imp_right fun hread => ?_
      rw [perform, perform, lengthened, hread]
  | write i byte => exact withTape_lengthened (tape.write_lengthened k i byte) source sink
  | moveTo i => exact withTape_lengthened (tape.moveTo_lengthened k i) source sink
  | shift distance => exact withTape_lengthened (tape.shift_lengthened k distance) source sink
  | setCurrent byte =>
      refine .inr ?_
      rw [perform, perform, lengthened, Tape.setCurrent_lengthened]
      rfl
  | receive => exact .inr rfl
  | send byte =>
      simp only [perform, lengthened]
      cases sink.write byte <;> exact .inr rfl

end Device

namespace Action

/-- The action never asks how long the tape is, and gives up on its first refused request. -/
inductive Measureless : Action → Prop where
  | done : Measureless done
  | fail (cause : Fault) : Measureless (fail cause)
  | demand (request : Request) (next : request.Answer → Action) (hrequest : request ≠ .length)
      (h : ∀ answer, Measureless (next answer)) : Measureless (demand request next)

variable {a b : Action}

theorem Measureless.andThen (ha : a.Measureless) (hb : b.Measureless) :
    (a.andThen b).Measureless := by
  induction ha with
  | done => exact hb
  | fail cause => exact .fail cause
  | demand request next hrequest _ ih =>
      rw [andThen_demand]
      exact .demand request _ hrequest ih

theorem measureless_prim (p : Prim) : p.action.Measureless := by
  cases p with
  | add | multiply | copyFrom | output =>
      exact .demand _ _ nofun fun _ => .demand _ _ nofun fun _ => .done
  | set | shift | moveTo | write | send => exact .demand _ _ nofun fun _ => .done
  | input =>
      refine .demand _ _ nofun fun answer => ?_
      cases answer with
      | some byte => exact .demand _ _ nofun fun _ => .done
      | none => exact .done
  | fail text => exact .fail _

theorem measureless_ofPrims (prims : List Prim) : (ofPrims prims).Measureless := by
  induction prims with
  | nil => exact .done
  | cons p prims ih => exact (measureless_prim p).andThen ih

/-- On a longer tape such an action does the same, unless the tape was too short for it. -/
theorem Measureless.run_lengthened (ha : a.Measureless) (k : Nat) (d : Device) :
    (a.run d).OutOfRange ∨ a.run (d.lengthened k) = (a.run d).map (Device.lengthened k) := by
  induction ha generalizing d with
  | done => exact .inr rfl
  | fail cause => exact .inr rfl
  | demand request next hrequest _ ih =>
      -- A refusal ends the action, so what comes after it need not agree.
      rw [run_demand, run_demand]
      rcases d.perform_lengthened hrequest k with ⟨position, length, hrefused⟩ | hsame
      · refine .inl ⟨position, length, (d.perform request).2, ?_⟩
        generalize d.perform request = r at hrefused ⊢
        obtain ⟨answer, d₁⟩ := r
        obtain rfl := hrefused
        rfl
      · rw [hsame]
        generalize d.perform request = r
        obtain ⟨_ | answer, d₁⟩ := r
        · exact .inr rfl
        · exact ih answer d₁

end Action

/-! ## Engines in lockstep -/

namespace Engine

variable {k : Nat} {c : Command} {e e' t t' : Engine}

def lengthened (k : Nat) (e : Engine) : Engine := { e with device := e.device.lengthened k }

/-- The device is the other one, but its tape is longer. -/
def Longer (k : Nat) (d d' : Device) : Prop := d' = d.lengthened k

/-- What the command does to a device is measureless. -/
def Measureless (c : Command) : Prop := ∀ ⦃action⦄, c.kind = .simple action → action.Measureless

theorem measureless_builtin (hc : c ∈ Command.builtins) : Measureless c := by
  intro action hk
  obtain ⟨p, rfl⟩ := Command.exists_prim_of_builtin hc hk
  exact Action.measureless_prim p

theorem tracks_longer (k : Nat) :
    Tracks Measureless (Longer k) fun o _ => o.OutOfRange where
  current := by
    rintro d d' rfl
    exact (d.tape.current_lengthened k).symm
  run := by
    rintro c action d d' hc hk rfl
    rcases (hc hk).run_lengthened k d with hout | hsame
    · exact .inr hout
    · rw [hsame]
      cases action.run d with
      | ok d => exact .inl (.ok rfl)
      | fault cause d => exact .inl (.fault rfl)

theorem flushesAlike_longer (k : Nat) : FlushesAlike (Longer k) := by
  rintro d d' rfl
  simp only [Device.flush, Sink.flush, Device.lengthened]
  cases d.sink.flushError with
  | none => exact .ok rfl
  | some text => exact .fault rfl

theorem Alike.eq_lengthened (h : Alike (Longer k) e e') : e' = e.lengthened k := by
  obtain ⟨device, rfl, rfl⟩ := h
  rfl

theorem Parts.stopped (h : Parts (Longer k) (fun o _ => o.OutOfRange) t t') :
    ∃ position length e, t.turn = .stopped (.outOfRange position length) e := by
  cases h with
  | @intro c action s halike ht hx hk hout =>
      obtain ⟨position, length, device, hrun⟩ := hout
      rw [turn_simple ht hx hk, hrun]
      exact ⟨position, length, _, rfl⟩

end Engine

/-! ## Runs -/

namespace Setup

open Engine

variable {setup : Setup} {script input : Source} {output : Sink} {k : Nat} {o : Outcome Engine}

def lengthened (k : Nat) (setup : Setup) : Setup :=
  { setup with length := setup.length + k, length_pos := Nat.add_pos_left setup.length_pos k }

theorem start_longer (setup : Setup) (k : Nat) (script input : Source) (output : Sink) :
    StartAlike (Longer k) setup (setup.lengthened k) script script input input output output := by
  refine ⟨rfl, rfl, _, rfl, ?_⟩
  rw [start, lengthened, Tape.blank_lengthened setup.length_pos]
  rfl

/-- Where the runs part the shorter tape was too short. -/
theorem exists_ends_of_splits
    (h : Splits (TurnsIn (setup.commands script)) (Longer k) (fun o _ => o.OutOfRange)
      (setup.start input output) ((setup.lengthened k).start input output)) :
    ∃ o, setup.Ends script input output o ∧ o.OutOfRange := by
  obtain ⟨t, t', ht, -, hparts⟩ := h
  obtain ⟨position, length, e, hstopped⟩ := hparts.stopped
  exact ⟨_, ends_iff.mpr (.fault (ht.steps_of_stopped hstopped)), position, length, e, rfl⟩

/-- All extensions are made of elementary actions. -/
theorem measureless_of_mem (script : Source)
    (hprims : ∀ c ∈ setup.dialect.commands, c ∉ Command.builtins →
      ∃ token prims, c = .extension token (.ofPrims prims))
    {c : Command} (hc : c ∈ setup.commands script) : Measureless c := by
  by_cases hbuiltin : c ∈ Command.builtins
  · exact measureless_builtin hbuiltin
  · obtain ⟨token, prims, rfl⟩ := hprims c (mem_dialect_of_mem_commands hc) hbuiltin
    intro action hk
    obtain rfl := Command.Kind.simple.inj hk
    exact Action.measureless_ofPrims prims

/-- A run for which its tape is long enough is the same on every longer tape, and one that never
ends does not end there either. -/
theorem longer_tape_unobservable (setup : Setup)
    (hprims : ∀ c ∈ setup.dialect.commands, c ∉ Command.builtins →
      ∃ token prims, c = .extension token (.ofPrims prims))
    (k : Nat) (script input : Source) (output : Sink) :
    (∀ o, setup.Ends script input output o → ¬o.OutOfRange → ∀ o',
      (setup.lengthened k).Ends script input output o' ↔ o' = o.map (Engine.lengthened k)) ∧
    ((∀ o, ¬setup.Ends script input output o) →
      ∀ o, ¬(setup.lengthened k).Ends script input output o) := by
  have hP (c : Command) (hc : c ∈ setup.commands script) : Measureless c :=
    measureless_of_mem script hprims hc
  have hstart := setup.start_longer k script input output
  have hor := ends_alike (tracks_longer k) (flushesAlike_longer k) hP hstart
  constructor
  · intro o h hfits
    rcases hor with hmatches | hsplits
    · obtain ⟨o', ho', hrel⟩ := hmatches.left o h
      have heq : o' = o.map (Engine.lengthened k) := hrel.eq_map fun _ => Alike.eq_lengthened
      exact fun _ => (heq ▸ ho').iff_eq
    · obtain ⟨o', ho', hout⟩ := exists_ends_of_splits hsplits
      exact absurd (ho'.unique h ▸ hout) hfits
  · intro hnever o h
    rcases hor with hmatches | hsplits
    · obtain ⟨o', ho', -⟩ := hmatches.right o h
      exact hnever o' ho'
    · obtain ⟨o', ho', -⟩ := exists_ends_of_splits hsplits
      exact hnever o' ho'

/-- An extension that moves to the last cell, on a tape of two cells and on one of five. -/
theorem longer_tape_unobservable_last_cell :
    let mark := Command.extension 'x'.toUInt8 (.ofPrims [.shift 1, .set 7])
    let setup : Setup := { dialect := ⟨Command.builtins ++ [mark], by decide⟩, length := 2 }
    let script := Source.ofBytes (['x', '+', '.'].map Char.toUInt8)
    ∃ e, setup.Ends script (.ofBytes []) {} (.ok e) ∧ e.device.tape.cells = #[0, 8] ∧
      (setup.lengthened 3).Ends script (.ofBytes []) {} (.ok (e.lengthened 3)) ∧
      (e.lengthened 3).device.tape.cells = #[0, 8, 0, 0, 0] := by
  intro mark setup script
  have hprims : ∀ c ∈ setup.dialect.commands, c ∉ Command.builtins →
      ∃ token prims, c = .extension token (.ofPrims prims) := by
    intro c hc hextension
    rcases List.mem_append.mp hc with hbuiltin | hmark
    · exact absurd hbuiltin hextension
    · exact ⟨_, _, List.mem_singleton.mp hmark⟩
  have hsteps : Steps (setup.commands script) (setup.start (.ofBytes []) {}) (.ok _) := ⟨2, rfl⟩
  have hends : setup.Ends script (.ofBytes []) {} _ := ends_iff.mpr (.ok hsteps rfl)
  have hlonger := (setup.longer_tape_unobservable hprims 3 script (.ofBytes []) {}).1
  refine ⟨_, hends, rfl, (hlonger _ hends ?_ _).mpr rfl, rfl⟩
  rintro ⟨position, length, e, hfault⟩
  cases hfault

end Setup

end TapeScript
