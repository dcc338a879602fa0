import TapeScript.Proofs.Run.Lockstep
import TapeScript.Proofs.Stream.Reading

/-! # Input that is not read

What a run does not read of its input does not matter to it. A break in the input matters only
to a command that reads on there. -/

namespace TapeScript

open Outcome

namespace Engine

variable {input input' : Source} {m total : Nat} {text : String} {e e' t : Engine}

/-- The same engine, which reads from that source. -/
def reading (source : Source) (e : Engine) : Engine :=
  { e with device := { e.device with source } }

/-- The action that is due, if there is one, is handed every byte that it asks for. -/
def Supplied (e : Engine) : Prop :=
  ∀ ⦃c s action⦄, e.skeleton.take = (some c, s) → exhausted? e.limit e.executed = none →
    c.kind = .simple action → action.Supplied e.device

/-- The built-in command that reads is due, and no limit keeps it from being executed. -/
def AsksForByte (e : Engine) : Prop :=
  ∃ c s, e.skeleton.take = (some c, s) ∧ c ∈ Command.builtins ∧ c.token = ','.toUInt8 ∧
    exhausted? e.limit e.executed = none

/-! ## In lockstep -/

theorem tracks_readsAlike (hsame : input.delivered.take m <+: input'.delivered) :
    Tracks (fun _ => True) (Device.ReadsAlike input input' m)
      fun o _ => input.Strays m o.state.source where
  current := by
    rintro d d' ⟨n, -, -, rfl⟩
    rfl
  run := fun _ action _ _ _ _ h => action.run_readsAlike hsame h

theorem flushesAlike_readsAlike : FlushesAlike (Device.ReadsAlike input input' m) := by
  rintro d d' ⟨n, hn, hsource, rfl⟩
  simp only [Device.flush, Sink.flush]
  cases d.sink.flushError with
  | none => exact .ok ⟨n, hn, hsource, rfl⟩
  | some text => exact .fault ⟨n, hn, hsource, rfl⟩

theorem Alike.eq_reading (h : Alike (Device.ReadsAlike input input' m) e e')
    (htaken : e.device.source.taken = input.taken + m) : e' = e.reading (input'.after m) := by
  obtain ⟨device, ⟨n, -, hsource, rfl⟩, rfl⟩ := h
  rw [hsource] at htaken
  obtain rfl : n = m := Nat.add_left_cancel htaken
  rfl

/-- At least so many bytes were taken. -/
theorem kept_taken (n : Nat) : Kept fun e => n ≤ e.device.source.taken := by
  refine Kept.of_source (P := fun s => n ≤ s.taken) fun s h => ?_
  obtain ⟨k, -, -, htaken⟩ := s.readByte_inOrder
  rw [htaken]
  exact Nat.le_add_right_of_le h

/-- Where the sources are told apart although every byte was handed out, more bytes than both
have in common are read. -/
theorem Parts.lt_taken
    (h : Parts (Device.ReadsAlike input input' m) (fun o _ => input.Strays m o.state.source) t e')
    (hs : t.Supplied) : input.taken + (m + 1) ≤ t.turn.engine.device.source.taken := by
  cases h with
  | @intro c action s halike ht hx hk hstrays =>
      obtain ⟨n, -, hsource, -⟩ := halike.device
      obtain ⟨k, hk'⟩ := (hs ht hx hk).exists_after ⟨n, hsource⟩
      rw [hk'] at hstrays
      have hlt := hstrays.lt_of_after
      rw [device_turn_of_simple ht hx hk, hk']
      exact Nat.add_le_add_left hlt input.taken

/-! ## As the end shows -/

/-- Reads have all handed out a byte, or one was not answered. -/
theorem kept_after_or_strays (input : Source) (m : Nat) :
    Kept fun e => (∃ n, e.device.source = input.after n) ∨ input.Strays m e.device.source := by
  refine Kept.of_source (P := fun s => (∃ n, s = input.after n) ∨ input.Strays m s) fun s h => ?_
  rcases h with ⟨n, rfl⟩ | hstrays
  · exact input.after_or_strays m n
  · exact .inr hstrays.readByte

theorem kept_strays (input : Source) (m : Nat) : Kept fun e => input.Strays m e.device.source :=
  Kept.of_source fun _ => Source.Strays.readByte

theorem supplied_or_strays (h : ∃ n, t.device.source = input.after n) (m : Nat) :
    t.Supplied ∨ input.Strays m t.turn.engine.device.source := by
  by_cases hs : t.Supplied
  · exact .inl hs
  · simp only [Supplied, not_forall] at hs
    obtain ⟨c, s, action, ht, hx, hk, hs⟩ := hs
    rw [device_turn_of_simple ht hx hk]
    exact (action.supplied_or_strays h m).imp_left fun h => absurd h hs

/-! ## At a break -/

theorem kept_breaksAt (total : Nat) (text : String) :
    Kept fun e => e.device.source.BreaksAt total text :=
  Kept.of_source fun _ => Source.BreaksAt.readByte

theorem turn_of_breaksAt (h : t.AsksForByte) (hb : t.device.source.BreaksAt total text)
    (htaken : t.device.source.taken = total) :
    ∃ s, t.turn = .stopped (.stream text)
      { t with
        device := { t.device with source := t.device.source.missed }
        skeleton := s
        executed := t.executed + 1 } := by
  obtain ⟨c, s, ht, hc, htoken, hx⟩ := h
  have hk : c.kind = .simple Prim.input.action := by
    simp only [Command.builtins, List.mem_cons, List.not_mem_nil, or_false] at hc
    rcases hc with rfl | rfl | rfl | rfl | rfl | rfl | rfl | rfl <;> first | rfl | cases htoken
  have hrun : Prim.input.action.run t.device =
      .fault (.stream text) { t.device with source := t.device.source.missed } := by
    rw [Prim.action, Action.run_demand, Device.perform_receive, hb.readByte_eq htaken]
  refine ⟨s, ?_⟩
  rw [turn_simple ht hx hk, hrun]

end Engine

namespace Setup

open Engine

variable {setup : Setup} {script input input' : Source} {output : Sink} {m : Nat}
  {text : String} {t : Engine} {o : Outcome Engine}

/-- Every byte that the run asks for is handed out. -/
def Supplied (setup : Setup) (script input : Source) (output : Sink) : Prop :=
  ∀ t, TurnsIn (setup.commands script) (setup.start input output) t → t.Supplied

/-- The calls on the input were all answered with a byte if no more calls were made than it
takes to read the bytes. -/
theorem Ends.supplied (h : setup.Ends script input output o)
    (hsource : o.state.device.source = input.after m) : setup.Supplied script input output := by
  obtain ⟨o', sink, hsteps, hstate⟩ := h.exists_stepped
  have hsame : o.state.device.source = o'.state.device.source := by rw [hstate]
  have hnever : ¬input.Strays m o'.state.device.source := by
    intro hstrays
    rw [← hsame, hsource] at hstrays
    exact Nat.lt_irrefl m hstrays.lt_of_after
  intro t ht
  have hstart : ∃ n, (setup.start input output).device.source = input.after n :=
    ⟨0, input.after_zero.symm⟩
  have hturn : t.Supplied ∨ input.Strays m t.turn.engine.device.source := by
    rcases (kept_after_or_strays input m).turnsIn (.inl hstart) ht with hafter | hstrays
    · exact supplied_or_strays hafter m
    · exact .inr ((kept_strays input m).turn t hstrays)
  rcases hturn with hs | hstrays
  · exact hs
  · exact absurd (ht.kept_until_end (kept_strays input m) hstrays hsteps) hnever

theorem Ends.reading (h : setup.Ends script input output o)
    (htaken : o.state.device.source.taken = input.taken + m)
    (hs : setup.Supplied script input output)
    (hsame : input.delivered.take m <+: input'.delivered) :
    setup.Ends script input' output (o.map (Engine.reading (input'.after m))) := by
  have hstart : StartAlike (Device.ReadsAlike input input' m) setup setup script script input
      input' output output := by
    refine ⟨rfl, rfl, _, ⟨0, Nat.zero_le m, ?_, rfl⟩, ?_⟩
    · exact input.after_zero.symm
    · rw [input'.after_zero]
      rfl
  rcases ends_alike (tracks_readsAlike hsame) flushesAlike_readsAlike (fun _ _ => trivial) hstart
    with hmatches | ⟨t, t', ht, -, hparts⟩
  · obtain ⟨o', ho', hrel⟩ := hmatches.left o h
    have heq : o' = o.map (Engine.reading (input'.after m)) :=
      hrel.eq_map fun _ halike => halike.eq_reading htaken
    exact heq ▸ ho'
  · -- Where the runs part more than `m` bytes were taken, and none is given back later.
    obtain ⟨o', sink, hsteps, hstate⟩ := h.exists_stepped
    have hlt := ht.kept_until_end (kept_taken _) (hparts.lt_taken (hs t ht)) hsteps
    have heq : o.state.device.source = o'.state.device.source := by rw [hstate]
    rw [← heq, htaken] at hlt
    omega

/-- Right at the break a command reads on, and the run fails there. -/
theorem exists_ends_of_break (hbreak : input.breakdown = some ⟨m, text⟩)
    (ht : TurnsIn (setup.commands script) (setup.start input output) t) (hasks : t.AsksForByte)
    (htaken : t.device.source.taken = input.taken + m) :
    ∃ e, setup.Ends script input output (.fault (.stream text) e) ∧
      e.device = { t.device with source := t.device.source.missed } := by
  have hbreaks : t.device.source.BreaksAt (input.taken + m) text :=
    (kept_breaksAt _ _).turnsIn ⟨m, hbreak, rfl⟩ ht
  obtain ⟨s, hstopped⟩ := turn_of_breaksAt hasks hbreaks htaken
  exact ⟨_, ends_iff.mpr (.fault (ht.steps_of_stopped hstopped)), rfl⟩

/-- A run that was handed every byte it asked for is the same on any other input that begins with
the bytes it has read. If the input breaks off and the built-in command asks for one more byte
there, then this is the end of the run, on the device as it was except that a call was made. -/
theorem unread_input_irrelevant (setup : Setup) (script input : Source) (output : Sink) (m : Nat) :
    (∀ o, setup.Ends script input output o → o.state.device.source.taken = input.taken + m →
      setup.Supplied script input output →
      ∀ input', input.delivered.take m <+: input'.delivered → ∀ o',
        setup.Ends script input' output o' ↔ o' = o.map (Engine.reading (input'.after m))) ∧
    (∀ text, input.breakdown = some ⟨m, text⟩ →
      ∀ t, TurnsIn (setup.commands script) (setup.start input output) t → t.AsksForByte →
        t.device.source.taken = input.taken + m →
        ∃ e, (∀ o, setup.Ends script input output o ↔ o = .fault (.stream text) e) ∧
          e.device = { t.device with source := t.device.source.missed }) := by
  constructor
  · intro o h htaken hs input' hsame o'
    exact (h.reading htaken hs hsame).iff_eq
  · intro text hbreak t ht hasks htaken
    obtain ⟨e, hends, hdevice⟩ := exists_ends_of_break hbreak ht hasks htaken
    exact ⟨e, fun _ => hends.iff_eq, hdevice⟩

/-- A byte is read and written, before another byte, before a break, and before a break at which
one more byte is asked for. -/
theorem unread_input_irrelevant_echo :
    let setup : Setup := { length := 1 }
    let echo := Source.ofBytes ([',', '.'].map Char.toUInt8)
    let input : Source :=
      { rest := [97], chunk := some 1, breakdown := some ⟨1, "gone"⟩, interrupts := { period := 2 } }
    (∃ o, setup.Ends echo (.ofBytes [97, 98]) {} o ∧
      setup.Ends echo input {} (o.map (Engine.reading (input.after 1)))) ∧
    ∃ e, setup.Ends (.ofBytes ([',', '.', ','].map Char.toUInt8)) input {}
        (.fault (.stream "gone") e) ∧
      e.device.sink.accepted = #[97] := by
  intro setup echo input
  constructor
  · have hsteps : Steps (setup.commands echo) (setup.start (.ofBytes [97, 98]) {}) (.ok _) :=
      ⟨2, rfl⟩
    have hends : setup.Ends echo (.ofBytes [97, 98]) {} _ := ends_iff.mpr (.ok hsteps rfl)
    have hsupplied : setup.Supplied echo (.ofBytes [97, 98]) {} := hends.supplied (m := 1) rfl
    have hsame : (Source.ofBytes [97, 98]).delivered.take 1 <+: input.delivered := by decide
    have hunread := (setup.unread_input_irrelevant echo (.ofBytes [97, 98]) {} 1).1
    exact ⟨_, hends, (hunread _ hends rfl hsupplied input hsame _).mpr rfl⟩
  · have hpre : Steps (setup.commands echo) (setup.start input {}) (.ok _) := ⟨2, rfl⟩
    let asking : Command := ⟨','.toUInt8, .simple Prim.input.action⟩
    have hmem : asking ∈ Command.builtins := by simp [asking, Command.builtins]
    have hturns (t : Engine) (hat : AtTurn asking _ t) := hat.turnsIn hpre []
    have hbreak := (setup.unread_input_irrelevant
      (.ofBytes ([',', '.', ','].map Char.toUInt8)) input {} 1).2
    obtain ⟨e, hends, hdevice⟩ := hbreak "gone" rfl _ (hturns _ ⟨_, rfl, rfl, .refl⟩)
      ⟨asking, _, rfl, hmem, rfl, rfl⟩ rfl
    exact ⟨e, (hends _).mpr rfl, by rw [hdevice]; rfl⟩

end Setup

end TapeScript
