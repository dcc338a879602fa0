import TapeScript.Proofs.Computation
import TapeScript.Proofs.Engine.Moments

/-! # What requests keep

An action does nothing to a device but put requests to it. What every request keeps, or keeps
alike on two devices, is kept by actions and by whole runs. -/

namespace TapeScript

open Outcome

/-- A request reads a byte, or writes one, or else concerns the tape alone. -/
theorem Request.receive_or_send_or (request : Request) :
    request = .receive ∨ (∃ byte, request = .send byte) ∨
      ∀ tape, ∃ answer tape', ∀ source sink,
        Device.perform request ⟨tape, source, sink⟩ = (answer, ⟨tape', source, sink⟩) := by
  cases request with
  | receive => exact .inl rfl
  | send byte => exact .inr (.inl ⟨byte, rfl⟩)
  | current => exact .inr (.inr fun tape => ⟨.ok tape.current, tape, fun _ _ => rfl⟩)
  | cursor => exact .inr (.inr fun tape => ⟨.ok tape.cursor, tape, fun _ _ => rfl⟩)
  | length => exact .inr (.inr fun tape => ⟨.ok tape.length, tape, fun _ _ => rfl⟩)
  | read i => exact .inr (.inr fun tape => ⟨tape.read i, tape, fun _ _ => rfl⟩)
  | setCurrent byte =>
      exact .inr (.inr fun tape => ⟨.ok (), tape.setCurrent byte, fun _ _ => rfl⟩)
  | write i byte =>
      refine .inr (.inr fun tape => ?_)
      simp only [Device.perform]
      cases tape.write i byte <;> exact ⟨_, _, fun _ _ => rfl⟩
  | moveTo i =>
      refine .inr (.inr fun tape => ?_)
      simp only [Device.perform]
      cases tape.moveTo i <;> exact ⟨_, _, fun _ _ => rfl⟩
  | shift distance =>
      refine .inr (.inr fun tape => ?_)
      simp only [Device.perform]
      cases tape.shift distance <;> exact ⟨_, _, fun _ _ => rfl⟩

theorem Device.perform_send (byte : UInt8) (d : Device) :
    d.perform (.send byte) =
      match d.sink.write byte with
      | .ok sink => (.ok (), { d with sink })
      | .fault cause sink => (.error cause, { d with sink }) := by
  cases hwrite : d.sink.write byte <;> simp only [perform, hwrite]

/-- A request changes the tape, or takes a byte from the source, or puts one to the sink. -/
theorem Device.perform_cases (request : Request) (d : Device) :
    (∃ tape, (d.perform request).2 = { d with tape }) ∨
      (d.perform request).2 = { d with source := d.source.readByte.2 } ∨
      ∃ byte, (d.perform request).2 = { d with sink := (d.sink.write byte).state } := by
  rcases request.receive_or_send_or with rfl | ⟨byte, rfl⟩ | htape
  · exact .inr (.inl rfl)
  · refine .inr (.inr ⟨byte, ?_⟩)
    rw [perform_send]
    cases d.sink.write byte <;> rfl
  · obtain ⟨answer, tape, h⟩ := htape d.tape
    exact .inl ⟨tape, congrArg Prod.snd (h d.source d.sink)⟩

/-- What reading a byte keeps of the source every request keeps. -/
theorem Device.perform_keeps_source {P : Source → Prop} (h : ∀ s, P s → P s.readByte.2)
    (request : Request) (d : Device) (hd : P d.source) : P (d.perform request).2.source := by
  rcases d.perform_cases request with ⟨tape, hp⟩ | hp | ⟨byte, hp⟩ <;> rw [hp]
  · exact hd
  · exact h _ hd
  · exact hd

theorem Device.perform_receive (d : Device) :
    d.perform .receive = (d.source.readByte.1, { d with source := d.source.readByte.2 }) :=
  rfl

namespace Action

variable {P : Device → Prop} {R : Device → Device → Prop}

theorem run_ask (request : Request) (next : Except Fault request.Answer → Action) (d : Device) :
    (ask request next).run d = (next (d.perform request).1).run (d.perform request).2 :=
  rfl

theorem run_demand (request : Request) (next : request.Answer → Action) (d : Device) :
    (demand request next).run d =
      match d.perform request with
      | (.ok answer, d) => (next answer).run d
      | (.error cause, d) => .fault cause d := by
  simp only [demand, run]
  rcases d.perform request with ⟨_ | _, d⟩ <;> rfl

theorem run_send (byte : UInt8) (next : (Request.send byte).Answer → Action) (d : Device) :
    (demand (.send byte) next).run d =
      match d.sink.write byte with
      | .ok sink => (next ()).run { d with sink }
      | .fault cause sink => .fault cause { d with sink } := by
  rw [run_demand, Device.perform_send]
  cases d.sink.write byte <;> rfl

theorem run_keeps (h : ∀ request d, P d → P (d.perform request).2) (action : Action)
    {d : Device} (hd : P d) : P (action.run d).state := by
  induction action generalizing d with
  | done => exact hd
  | fail cause => exact hd
  | ask request next ih => exact ih _ (h request d hd)

/-- Devices that answer every request alike are not told apart by an action. -/
theorem run_alike (h : ∀ request d d', R d d' →
      (d.perform request).1 = (d'.perform request).1 ∧
        R (d.perform request).2 (d'.perform request).2)
    (action : Action) {d d' : Device} (hd : R d d') : Rel R R (action.run d) (action.run d') := by
  induction action generalizing d d' with
  | done => exact .ok hd
  | fail cause => exact .fault hd
  | ask request next ih =>
      obtain ⟨hanswer, hR⟩ := h request d d' hd
      rw [run_ask, run_ask, ← hanswer]
      exact ih _ hR

end Action

theorem Engine.Kept.of_requests {P : Device → Prop}
    (h : ∀ request d, P d → P (d.perform request).2) : Kept fun e => P e.device where
  skeleton := fun _ _ he => he
  turn := by
    intro e he
    rcases htake : e.skeleton.take with ⟨_ | c, s⟩
    · rw [turn_idle htake]
      exact he
    · cases hx : exhausted? e.limit e.executed with
      | some k =>
          rw [turn_exhausted htake hx]
          exact he
      | none =>
          cases hk : c.kind with
          | simple action =>
              rw [device_turn_of_simple htake hx hk]
              exact action.run_keeps h he
          | loopOpen =>
              rw [turn_loopOpen htake hx hk]
              exact he
          | loopClose =>
              rw [turn_loopClose htake hx hk]
              exact he

theorem Engine.Kept.of_source {P : Source → Prop} (h : ∀ s, P s → P s.readByte.2) :
    Kept fun e => P e.device.source :=
  Kept.of_requests (P := fun d => P d.source) (Device.perform_keeps_source h)

end TapeScript
