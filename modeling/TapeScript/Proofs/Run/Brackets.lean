import TapeScript.Proofs.Engine.Faults
import TapeScript.Proofs.Run.Limit

/-! # How runs report brackets

A run counts the brackets of its script as they come in, also those that it passes over, and
no bracket twice. What it reports of them is read off the script alone. -/

namespace TapeScript

open Outcome TapeScript.Bracket

/-! ## Faults that concern brackets -/

def Fault.ConcernsBrackets : Fault → Prop
  | unmatchedClose | unclosedLoops _ => True
  | _ => False

namespace Command

/-- The command's own action never fails with a fault that concerns brackets. -/
def SparesBrackets (c : Command) : Prop :=
  ∀ ⦃action device cause device'⦄, c.kind = .simple action →
    action.run device = .fault cause device' → ¬cause.ConcernsBrackets

variable {token : UInt8} {action : Action}

theorem SparesBrackets.of_action
    (h : ∀ device cause, (action.run device).fault? = some cause → ¬cause.ConcernsBrackets) :
    SparesBrackets ⟨token, .simple action⟩ := by
  intro action' d cause d' hk hrun
  obtain rfl := Kind.simple.inj hk
  exact h d cause (by rw [hrun, fault?_fault])

theorem sparesBrackets_add (token amount : UInt8) :
    SparesBrackets ⟨token, .simple (Prim.add amount).action⟩ := by
  apply SparesBrackets.of_action
  intro d cause h
  rw [Prim.run_add] at h
  cases h

theorem sparesBrackets_shift (token : UInt8) (distance : Int) :
    SparesBrackets ⟨token, .simple (Prim.shift distance).action⟩ := by
  apply SparesBrackets.of_action
  intro d cause h
  rw [Prim.run_shift, fault?_map] at h
  obtain ⟨position, length, rfl⟩ := Tape.fault_shift h
  exact not_false

theorem sparesBrackets_output (token : UInt8) :
    SparesBrackets ⟨token, .simple Prim.output.action⟩ := by
  apply SparesBrackets.of_action
  intro d cause h
  rw [Prim.run_output, fault?_map] at h
  obtain ⟨text, htext⟩ := d.sink.refusal.exists_fault_eq
  rw [Sink.fault_write h, htext]
  exact not_false

theorem sparesBrackets_input (token : UInt8) :
    SparesBrackets ⟨token, .simple Prim.input.action⟩ := by
  apply SparesBrackets.of_action
  intro d cause h
  rw [Prim.run_input] at h
  rcases hread : d.source.readByte with ⟨_ | _ | byte, source⟩ <;> rw [hread] at h <;> cases h
  obtain ⟨text, rfl⟩ := Source.error_readByte hread
  exact not_false

theorem sparesBrackets_builtin {c : Command} (hc : c ∈ builtins) : c.SparesBrackets := by
  simp only [builtins, List.mem_cons, List.not_mem_nil, or_false] at hc
  rcases hc with rfl | rfl | rfl | rfl | rfl | rfl | rfl | rfl
  · exact sparesBrackets_add _ 1
  · exact sparesBrackets_add _ 255
  · exact sparesBrackets_shift _ 1
  · exact sparesBrackets_shift _ (-1)
  · exact sparesBrackets_output _
  · exact sparesBrackets_input _
  · rintro _ _ _ _ ⟨⟩
  · rintro _ _ _ _ ⟨⟩

end Command

/-! ## Brackets of scripts -/

namespace Bracket

/-- No beginning of the commands closes more loops than it opens. -/
def NeverOverclosed (commands : List Command) : Prop :=
  ∀ pre, pre <+: commands → ¬Overclosed (ofCommands pre)

variable {commands : List Command}

theorem neverOverclosed_iff :
    NeverOverclosed commands ↔ ∀ ys, ys <+: ofCommands commands → ¬Overclosed ys := by
  constructor
  · intro h ys hys
    obtain ⟨pre, hpre, rfl⟩ := List.prefix_filterMap_iff.mp hys
    exact h pre hpre
  · intro h pre hpre
    exact h _ (hpre.filterMap ofCommand?)

theorem depthFrom?_ofCommands_eq_some_iff (n : Nat) :
    depthFrom? 0 (ofCommands commands) = some n ↔
      NeverOverclosed commands ∧
        (ofCommands commands).count opening = (ofCommands commands).count closing + n := by
  rw [depthFrom?_eq_some_iff, neverOverclosed_iff]

theorem depthFrom?_ofCommands_eq_none_iff :
    depthFrom? 0 (ofCommands commands) = none ↔
      ∃ pre, pre <+: commands ∧ Overclosed (ofCommands pre) := by
  rw [depthFrom?_eq_none_iff]
  constructor
  · rintro ⟨ys, hys, hover⟩
    obtain ⟨pre, hpre, rfl⟩ := List.prefix_filterMap_iff.mp hys
    exact ⟨pre, hpre, hover⟩
  · rintro ⟨pre, hpre, hover⟩
    exact ⟨_, hpre.filterMap ofCommand?, hover⟩

end Bracket

/-! ## What becomes of a run -/

namespace Setup

open Engine

variable {setup : Setup} {script input : Source} {output : Sink} {o : Outcome Engine}

/-- How a run can end, and what its brackets are then. -/
inductive Verdict (setup : Setup) (script input : Source) (output : Sink) :
    Option Fault → Prop where
  | closed (h : depthFrom? 0 (ofCommands (setup.commands script)) = some 0) :
      Verdict setup script input output none
  | unclosed {n : Nat} (hn : 1 ≤ n)
      (h : depthFrom? 0 (ofCommands (setup.commands script)) = some n) :
      Verdict setup script input output (some (.unclosedLoops n))
  | unmatched {pre : List Command} {c : Command} {post : List Command} {e : Engine}
      (hcommands : setup.commands script = pre ++ c :: post)
      (hpre : Steps pre (setup.start input output) (.ok e)) (hk : c.kind = .loopClose)
      (h : depthFrom? 0 (ofCommands pre) = some 0) :
      Verdict setup script input output (some .unmatchedClose)
  | stream (text : String) : Verdict setup script input output (some (.stream text))
  | stopped {cause : Fault} {m e : Engine}
      (h : TurnsIn (setup.commands script) (setup.start input output) m)
      (ht : m.turn = .stopped cause e) : Verdict setup script input output (some cause)

theorem depthFrom?_of_steps {commands : List Command} {e : Engine}
    (h : Steps commands (setup.start input output) (.ok e)) :
    depthFrom? 0 (ofCommands commands) = some e.skeleton.depth := by
  obtain ⟨fuel, h⟩ := h
  exact depthFrom?_steps h

theorem verdict_of_finish {e : Engine}
    (h : depthFrom? 0 (ofCommands (setup.commands script)) = some e.skeleton.depth) :
    setup.Verdict script input output (finish script.broken? e).fault? := by
  cases script.broken? with
  | some text => exact .stream text
  | none =>
      change setup.Verdict script input output e.conclude.fault?
      cases hopen : e.skeleton.openLoops with
      | nil =>
          rw [Skeleton.depth, hopen] at h
          rw [conclude_eq_flush hopen, fault?_map, Device.flush, fault?_map, Sink.flush]
          cases e.device.sink.flushError with
          | none => exact .closed h
          | some text => exact .stream text
      | cons l outer =>
          rw [conclude_of_open (hopen ▸ List.cons_ne_nil l outer)]
          refine .unclosed ?_ h
          rw [Skeleton.depth, hopen]
          exact Nat.le_add_left 1 _

theorem verdict_of_ends (h : setup.Ends script input output o) :
    setup.Verdict script input output o.fault? := by
  rw [ends_iff] at h
  cases h with
  | fault h =>
      cases h.fails with
      | refused hcommands hpre hk hopen hcause =>
          have hdepth := depthFrom?_of_steps hpre
          rw [Skeleton.depth, hopen, List.length_nil] at hdepth
          obtain rfl := hcause
          exact .unmatched hcommands hpre hk hdepth
      | stopped h ht => exact .stopped h ht
  | @ok e _ h hfinish =>
      have hdepth := depthFrom?_of_steps h
      rw [hfinish]
      exact verdict_of_finish hdepth

theorem unclosed_iff {commands : List Command} {n : Nat} :
    depthFrom? 0 (ofCommands commands) = some n ∧ 1 ≤ n ↔
      NeverOverclosed commands ∧ 1 ≤ n ∧
        n = (ofCommands commands).count opening - (ofCommands commands).count closing := by
  rw [depthFrom?_ofCommands_eq_some_iff]
  constructor
  · rintro ⟨⟨hnever, hcount⟩, hn⟩
    exact ⟨hnever, hn, by omega⟩
  · rintro ⟨hnever, hn, hcount⟩
    exact ⟨⟨hnever, by omega⟩, hn⟩

/-! ## Reports -/

/-- What the run reports of its brackets is true of the script. -/
structure ReportsBrackets (setup : Setup) (script input : Source) (output : Sink)
    (report : Option Fault) : Prop where
  balanced : report = none → Balanced (ofCommands (setup.commands script))
  unmatched : report = some .unmatchedClose →
    ∃ pre c post e, setup.commands script = pre ++ c :: post ∧
      NeverOverclosed pre ∧ Overclosed (ofCommands (pre ++ [c])) ∧
      Steps pre (setup.start input output) (.ok e)
  unclosed : ∀ n, report = some (.unclosedLoops n) →
    NeverOverclosed (setup.commands script) ∧ 1 ≤ n ∧
      n = (ofCommands (setup.commands script)).count opening -
        (ofCommands (setup.commands script)).count closing

/-- The report is the one that the brackets of the script call for. -/
structure DecidedByBrackets (commands : List Command) (report : Option Fault) : Prop where
  balanced : report = none ↔ Balanced (ofCommands commands)
  unmatched : report = some .unmatchedClose ↔
    ∃ pre, pre <+: commands ∧ Overclosed (ofCommands pre)
  unclosed : ∀ n, report = some (.unclosedLoops n) ↔
    NeverOverclosed commands ∧ 1 ≤ n ∧
      n = (ofCommands commands).count opening - (ofCommands commands).count closing

/-- What brackets of this depth call for. -/
def bracketFault? : Option Nat → Option Fault
  | none => some .unmatchedClose
  | some 0 => none
  | some (n + 1) => some (.unclosedLoops (n + 1))

theorem decidedByBrackets_bracketFault? (commands : List Command) :
    DecidedByBrackets commands (bracketFault? (depthFrom? 0 (ofCommands commands))) := by
  refine ⟨?_, ?_, fun n => ?_⟩
  · rw [Bracket.Balanced]
    rcases depthFrom? 0 (ofCommands commands) with _ | _ | n <;> simp [bracketFault?]
  · rw [← depthFrom?_ofCommands_eq_none_iff]
    rcases depthFrom? 0 (ofCommands commands) with _ | _ | n <;> simp [bracketFault?]
  · rw [← unclosed_iff]
    rcases depthFrom? 0 (ofCommands commands) with _ | _ | m <;> simp [bracketFault?]
    · omega
    · omega

/-- No turn is stopped, whether by an action or by the limit, and no stream fails. -/
structure Undisturbed (setup : Setup) (script input : Source) (output : Sink)
    (report : Option Fault) : Prop where
  turns : ∀ m, TurnsIn (setup.commands script) (setup.start input output) m →
    ∀ cause e, m.turn ≠ .stopped cause e
  streams : ∀ text, report ≠ some (.stream text)

theorem overclosed_concat {pre : List Command} {c : Command}
    (h : depthFrom? 0 (ofCommands pre) = some 0) (hk : c.kind = .loopClose) :
    Overclosed (ofCommands (pre ++ [c])) := by
  obtain ⟨-, hcount⟩ := (depthFrom?_ofCommands_eq_some_iff 0).mp h
  have hlast : ofCommands [c] = [closing] := by rw [ofCommands_cons, hk]; rfl
  rw [ofCommands_append, hlast, Overclosed, List.count_append, List.count_append, hcount,
    List.count_singleton_self]
  exact Nat.lt_succ_self _

/-- A fault that concerns brackets is reported for no other reason than the brackets. -/
theorem Verdict.reportsBrackets {report : Option Fault}
    (h : setup.Verdict script input output report)
    (hspare : ∀ c ∈ setup.dialect.commands, c.SparesBrackets) :
    setup.ReportsBrackets script input output report := by
  cases h with
  | closed h => exact ⟨fun _ => h, nofun, nofun⟩
  | unclosed hn h =>
      refine ⟨nofun, nofun, ?_⟩
      rintro n ⟨⟩
      exact unclosed_iff.mp ⟨h, hn⟩
  | unmatched hcommands hpre hk h =>
      refine ⟨nofun, fun _ => ?_, nofun⟩
      have hnever := ((depthFrom?_ofCommands_eq_some_iff 0).mp h).1
      exact ⟨_, _, _, _, hcommands, hnever, overclosed_concat h hk, hpre⟩
  | stream text => exact ⟨nofun, nofun, nofun⟩
  | @stopped cause m e h ht =>
      have hclear : ¬cause.ConcernsBrackets := by
        obtain ⟨id, c, hc, hstops⟩ := stops_of_stopped ht
        have hholds := h.holds .empty fun c hc => hspare c (mem_dialect_of_mem_commands hc)
        cases hstops with
        | limit => exact not_false
        | action hk hrun => exact hholds hc hk hrun
      refine ⟨nofun, ?_, ?_⟩
      · rintro ⟨⟩
        exact absurd trivial hclear
      · rintro n ⟨⟩
        exact absurd trivial hclear

/-- Without disturbance a run reports what its brackets call for. -/
theorem Verdict.decidedByBrackets {report : Option Fault}
    (h : setup.Verdict script input output report)
    (hu : setup.Undisturbed script input output report) :
    DecidedByBrackets (setup.commands script) report := by
  have hreport : report = bracketFault? (depthFrom? 0 (ofCommands (setup.commands script))) := by
    cases h with
    | closed h => rw [h]; rfl
    | @unclosed n hn h =>
        obtain ⟨n, rfl⟩ := Nat.exists_eq_add_of_le' hn
        rw [h]
        rfl
    | @unmatched pre c post e hcommands hpre hk h =>
        have hover : depthFrom? 0 (ofCommands (setup.commands script)) = none := by
          rw [depthFrom?_ofCommands_eq_none_iff]
          refine ⟨pre ++ [c], ?_, overclosed_concat h hk⟩
          rw [hcommands]
          exact ⟨post, (List.append_cons pre c post).symm⟩
        rw [hover]
        rfl
    | stream text => exact absurd rfl (hu.streams text)
    | stopped h ht => exact absurd ht (hu.turns _ h _ _)
  rw [hreport]
  exact decidedByBrackets_bracketFault? _

/-- Brackets are reported exactly: what a run reports of them is true of its script, and a run
that nothing else disturbs reports what they call for. -/
theorem brackets_reported (setup : Setup) (script input : Source) (output : Sink)
    (hspare : ∀ c ∈ setup.dialect.commands, c ∉ Command.builtins → c.SparesBrackets)
    {o : Outcome Engine} (h : setup.Ends script input output o) :
    setup.ReportsBrackets script input output o.fault? ∧
      (setup.Undisturbed script input output o.fault? →
        DecidedByBrackets (setup.commands script) o.fault?) := by
  have hverdict := verdict_of_ends h
  refine ⟨hverdict.reportsBrackets fun c hc => ?_, hverdict.decidedByBrackets⟩
  by_cases hbuiltin : c ∈ Command.builtins
  · exact Command.sparesBrackets_builtin hbuiltin
  · exact hspare c hc hbuiltin

/-- Two loops that stay open, of which the second is passed over. -/
theorem brackets_reported_open_loops :
    let setup : Setup := { length := 1 }
    let script := Source.ofBytes (['[', '['].map Char.toUInt8)
    ∃ o, setup.Ends script (.ofBytes []) {} o ∧ o.fault? = some (.unclosedLoops 2) := by
  intro setup script
  have hsteps : Steps (setup.commands script) (setup.start (.ofBytes []) {}) (.ok _) := ⟨2, rfl⟩
  have hends : setup.Ends script (.ofBytes []) {} (.fault (.unclosedLoops 2) _) :=
    ends_iff.mpr (.ok hsteps rfl)
  have hreported := setup.brackets_reported script (.ofBytes []) {}
    (fun c hc hn => absurd hc hn) hends
  have hundisturbed : setup.Undisturbed script (.ofBytes []) {} (some (.unclosedLoops 2)) := by
    refine ⟨fun m hm cause e ht => ?_, nofun⟩
    cases (hm.steps_of_stopped ht).unique hsteps
  refine ⟨_, hends, ((hreported.2 hundisturbed).unclosed 2).mpr ?_⟩
  exact unclosed_iff.mp ⟨rfl, by decide⟩

end Setup

end TapeScript
