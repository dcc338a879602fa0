import Mathlib.Logic.Function.Iterate
import TapeScript.Proofs.Builtin
import TapeScript.Proofs.Engine.Requests

/-! # Writing until a sink is full

A sink that fills up does what one that never does, up to the first byte that does not fit. An
action that gives up on its first refused request goes no further than that byte. -/

namespace TapeScript

open Outcome

namespace Sink

/-! ## What writing leaves behind -/

/-- The sink after these bytes were written to it, one call for each. -/
def after (s : Sink) (bytes : List UInt8) : Sink :=
  bytes.foldl (fun s byte => s.count.accept byte) s

/-- The same sink, which never fills up and whose output can be flushed. -/
def free (s : Sink) : Sink := { s with capacity := none, flushError := none }

/-- The same sink, which fails where the other one does. -/
def failingAs (s t : Sink) : Sink := { s with capacity := t.capacity, flushError := t.flushError }

variable {s : Sink} {bytes : List UInt8}

theorem after_append (s : Sink) (xs ys : List UInt8) :
    s.after (xs ++ ys) = (s.after xs).after ys :=
  List.foldl_append

theorem after_concat (s : Sink) (bytes : List UInt8) (byte : UInt8) :
    s.after (bytes ++ [byte]) = (s.after bytes).count.accept byte :=
  after_append s bytes [byte]

theorem after_eq (s : Sink) (bytes : List UInt8) :
    s.after bytes =
      { s with
        accepted := s.accepted ++ bytes.toArray
        calls := s.interrupts.callsAfter^[bytes.length] s.calls } := by
  induction bytes using List.reverseRecOn with
  | nil => simp [after]
  | append_singleton bytes byte ih =>
      rw [after_concat, ih, List.length_append, List.length_singleton,
        Function.iterate_succ_apply']
      simp [count, accept]

theorem capacity_after (s : Sink) (bytes : List UInt8) : (s.after bytes).capacity = s.capacity := by
  rw [after_eq]

theorem failingAs_after_free (s : Sink) (bytes : List UInt8) :
    (s.free.after bytes).failingAs s = s.after bytes := by
  rw [after_eq, after_eq]
  rfl

/-! ## One more byte -/

theorem write_of_free (hs : s.capacity = none) (byte : UInt8) :
    s.write byte = .ok (s.after [byte]) := by
  have hfull : s.isFull = false := by simp only [isFull, hs]
  rw [write_eq, hfull]
  rfl

theorem isFull_after {n : Nat} (hs : s.capacity = some (s.accepted.size + n)) :
    (s.after bytes).isFull = decide (n ≤ bytes.length) := by
  rw [after_eq]
  simp only [isFull, hs, Array.size_append, List.size_toArray, decide_eq_decide]
  omega

/-- As long as there is room a byte is accepted, and the first one beyond it is refused. -/
theorem write_after {n : Nat} (hs : s.capacity = some (s.accepted.size + n)) (byte : UInt8) :
    (s.after bytes).write byte =
      if bytes.length < n then .ok (s.after (bytes ++ [byte]))
      else .fault s.refusal.fault (s.after bytes).count := by
  have hrefusal : (s.after bytes).refusal = s.refusal := by rw [after_eq]
  rw [write_eq, isFull_after hs, hrefusal, after_concat]
  by_cases hn : bytes.length < n
  · rw [if_pos hn, if_neg (by simpa using hn)]
  · rw [if_neg hn, if_pos (by simpa using hn)]

end Sink

/-! ## Requests -/

namespace Device

variable {output : Sink} {n : Nat} {d d' : Device}

/-- A request that writes nothing does not depend on the sink. -/
theorem perform_withSink {request : Request} (h : ∀ byte, request ≠ .send byte) (d : Device)
    (sink : Sink) :
    perform request { d with sink } =
      ((perform request d).1, { (perform request d).2 with sink }) := by
  rcases request.receive_or_send_or with rfl | ⟨byte, rfl⟩ | htape
  · rfl
  · exact absurd rfl (h byte)
  · obtain ⟨answer, tape, hp⟩ := htape d.tape
    have hd : perform request d = (answer, ⟨tape, d.source, d.sink⟩) := hp _ _
    rw [hp, hd]

theorem sink_perform {request : Request} (h : ∀ byte, request ≠ .send byte) (d : Device) :
    (d.perform request).2.sink = d.sink := by
  have hsame := perform_withSink h d d.sink
  exact congrArg (fun r => r.2.sink) hsame

/-- What a sink that never fills up has accepted grows only. -/
theorem exists_after_perform (hs : output.capacity = none) (request : Request) (d : Device)
    (h : ∃ bytes, d.sink = output.after bytes) :
    ∃ bytes, (d.perform request).2.sink = output.after bytes := by
  obtain ⟨bytes, hbytes⟩ := h
  rcases d.perform_cases request with ⟨tape, hd⟩ | hd | ⟨byte, hd⟩ <;> rw [hd]
  · exact ⟨bytes, hbytes⟩
  · exact ⟨bytes, hbytes⟩
  · have hcapacity : d.sink.capacity = none := by
      rw [hbytes, Sink.capacity_after, hs]
    refine ⟨bytes ++ [byte], ?_⟩
    rw [Sink.write_of_free hcapacity, state_ok, hbytes, ← Sink.after_append]

/-- The same bytes were written to a sink that has room for `n` and to one that never fills
up. -/
def Within (output : Sink) (n : Nat) (d d' : Device) : Prop :=
  ∃ bytes, bytes.length ≤ n ∧ d.sink = output.free.after bytes ∧
    d' = { d with sink := output.after bytes }

/-- The one sink refuses a byte that does not fit, and the other goes on writing. -/
def CutOff (output : Sink) (n : Nat) (o o' : Outcome Device) : Prop :=
  ∃ bytes byte more tape source, bytes.length = n ∧
    o.state.sink = output.free.after (bytes ++ byte :: more) ∧
    o' = .fault output.refusal.fault ⟨tape, source, (output.after bytes).count⟩

end Device

namespace Action

open Device

variable {output : Sink} {n : Nat} {d d' : Device}

theorem exists_after_run (hs : d.sink.capacity = none) (action : Action) :
    ∃ more, (action.run d).state.sink = d.sink.after more :=
  action.run_keeps (P := fun d' => ∃ more, d'.sink = d.sink.after more)
    (exists_after_perform hs) ⟨[], rfl⟩

/-- An action that gives up on refused requests is cut off at the first byte that does not
fit. -/
theorem Strict.run_within (hs : output.capacity = some (output.accepted.size + n))
    {action : Action} (ha : action.Strict) (h : Within output n d d') :
    Rel (Within output n) (Within output n) (action.run d) (action.run d') ∨
      CutOff output n (action.run d) (action.run d') := by
  induction ha generalizing d d' with
  | done => exact .inl (.ok h)
  | fail cause => exact .inl (.fault h)
  | demand request next hnext ih =>
      obtain ⟨bytes, hn, hsink, rfl⟩ := h
      by_cases hsend : ∃ byte, request = .send byte
      · obtain ⟨byte, rfl⟩ := hsend
        have hfree : d.sink.capacity = none := by
          rw [hsink]
          exact Sink.capacity_after output.free bytes
        rw [run_send, run_send, Sink.write_of_free hfree, Sink.write_after hs]
        by_cases hlt : bytes.length < n
        · rw [if_pos hlt]
          refine ih () ⟨bytes ++ [byte], ?_, ?_, rfl⟩
          · rw [List.length_append]
            exact hlt
          · rw [hsink, ← Sink.after_append]
        · rw [if_neg hlt]
          have hlength : bytes.length = n := by omega
          obtain ⟨more, hmore⟩ := (next ()).exists_after_run
            (d := { d with sink := d.sink.after [byte] }) ((Sink.capacity_after _ _).trans hfree)
          refine .inr ⟨bytes, byte, more, d.tape, d.source, hlength, hmore.trans ?_, rfl⟩
          rw [hsink, ← Sink.after_append, ← Sink.after_append, List.singleton_append]
      · have hquiet : ∀ byte, request ≠ .send byte := fun byte h => hsend ⟨byte, h⟩
        have hkeeps := sink_perform hquiet d
        rw [run_demand, run_demand, perform_withSink hquiet d (output.after bytes)]
        generalize d.perform request = r at hkeeps ⊢
        obtain ⟨_ | answer, d₁⟩ := r
        · exact .inl (.fault ⟨bytes, hn, hkeeps.trans hsink, rfl⟩)
        · exact ih answer ⟨bytes, hn, hkeeps.trans hsink, rfl⟩

end Action

end TapeScript
