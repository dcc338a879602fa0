import TapeScript.Proofs.Engine.Conclusion
import TapeScript.Proofs.Engine.Limit
import TapeScript.Proofs.TwoPass.Online

/-! # One pass or two

Running a script as it comes in and running it with paired brackets answer the same. -/

namespace TapeScript

open Outcome Script

/-- The run ends with this answer. -/
def Setup.Gives (setup : Setup) (script input : List UInt8)
    (answer : Except Fault (Array UInt8 × Tally)) : Prop :=
  ∃ fuel, setup.runPlain fuel script input = some answer

/-- Both passes end with this answer. -/
def TwoPass.Gives (script input : List UInt8) (length : Nat)
    (answer : Except Failure (Array UInt8)) : Prop :=
  ∃ fuel, TwoPass.run fuel script input length = some answer

namespace TwoPass

variable {script input : List UInt8} {length : Nat} {hl : 0 < length} {table : JumpTable}
  {limit : Option Nat} {k : Nat} {out : Array UInt8} {tally : Tally} {cause : Fault}

/-! ## What the steps answer -/

theorem gives_iff {setup : Setup} {answer : Except Fault (Array UInt8 × Tally)} :
    setup.Gives script input answer ↔
      ∃ o, Engine.Steps (setup.dialect.commandsOf script) (setup.start (.ofBytes input) {}) o ∧
        Setup.reported o = answer := by
  simp only [Setup.Gives, Setup.runPlain_eq]
  exact halts_map

theorem twoPass_gives_iff (hjump : jumpTable script = .ok table)
    {answer : Except Failure (Array UInt8)} :
    Gives script input length answer ↔
      ∃ r, Halts (State.runTo script.toArray table script.length · (.start length input)) r ∧
        r.map (·.output) = answer := by
  have hrun (fuel : Nat) : TwoPass.run fuel script input length =
      (State.runTo script.toArray table script.length fuel (.start length input)).map
        (·.map (·.output)) := by
    have hsize := State.runTo_size script.toArray table fuel (.start length input)
    rw [List.size_toArray] at hsize
    simp only [TwoPass.run, hjump, hsize]
  simp only [Gives, hrun]
  exact halts_map

theorem balanced_of_gives (h : Gives script input length (.ok out)) :
    Bracket.Balanced (Bracket.ofBytes script) := by
  obtain ⟨fuel, h⟩ := h
  cases hjump : jumpTable script with
  | ok table => exact (exists_jumpTable_iff script).mp ⟨table, hjump⟩
  | error failure =>
      simp only [TwoPass.run, hjump] at h
      cases h

/-- Running at once and feeding the whole script match. -/
theorem matches_whole (input : List UInt8) (hl : 0 < length)
    (hjump : jumpTable script = .ok table) :
    Matches (fun o r => Answers length #[] r (o.map Engine.progress))
      (Engine.Steps (Dialect.builtin.commandsOf script)
        { device := ⟨.blank length hl, .ofBytes input, {}⟩ })
      (Halts (State.runTo script.toArray table script.length · (.start length input))) := by
  have hinfallible : Device.Infallible ⟨.blank length hl, .ofBytes input, {}⟩ :=
    ⟨rfl, by simp [Source.ofBytes], rfl, rfl⟩
  have hmatches := matches_steps (p := script) (q := []) (by rwa [List.append_nil]) hinfallible
  rwa [List.append_nil] at hmatches

/-! ## Runs that end well -/

/-- A limited run that ends well ends so without its limit. -/
theorem steps_unlimited {limit : Option Nat} {cs : List Command} {e : Engine}
    (h : Engine.Steps cs ((Setup.ofTape length hl limit).start (.ofBytes input) {}) (.ok e)) :
    ∃ e', Engine.Steps cs { device := ⟨.blank length hl, .ofBytes input, {}⟩ } (.ok e') ∧
      e'.device = e.device ∧ e'.skeleton = e.skeleton := by
  cases limit with
  | none => exact ⟨e, h, rfl, rfl⟩
  | some k =>
      obtain ⟨fuel, h⟩ := h
      rcases Engine.steps_limited_or
        (e := { device := ⟨.blank length hl, .ofBytes input, {}⟩ }) rfl h with
        ⟨o, ho, heq⟩ | ⟨m, heq, -⟩
      · cases o with
        | fault cause e' => cases heq
        | ok e' =>
            obtain rfl := Outcome.ok.inj heq
            exact ⟨e', ⟨fuel, ho⟩, rfl, rfl⟩
      · cases heq

theorem openLoops_of_steps {cs : List Command} {device : Device} {e : Engine}
    (h : Engine.Steps cs { device } (.ok e)) :
    Bracket.depthFrom? 0 (Bracket.ofCommands cs) = some e.skeleton.openLoops.length := by
  obtain ⟨fuel, h⟩ := h
  exact Engine.depthFrom?_steps h

theorem openLoops_of_balanced (hbalanced : Bracket.Balanced (Bracket.ofBytes script))
    {device : Device} {e : Engine}
    (h : Engine.Steps (Dialect.builtin.commandsOf script) { device } (.ok e)) :
    e.skeleton.openLoops = [] := by
  rw [← Bracket.ofCommands_builtin] at hbalanced
  exact Engine.openLoops_of_balanced hbalanced rfl h

/-- A run that ends well has closed all loops. -/
theorem openLoops_of_reported {e : Engine} (h : Setup.reported (.ok e) = .ok (out, tally)) :
    e.skeleton.openLoops = [] := by
  by_contra hopen
  simp only [Setup.reported, Engine.conclude_of_open hopen] at h
  cases h

theorem reported_of_closed {e : Engine} (h : e.skeleton.openLoops = [])
    (hf : e.device.sink.flushError = none) :
    ∃ tally, Setup.reported (.ok e) = .ok (e.device.sink.accepted, tally) := by
  obtain ⟨e', hconclude, haccepted⟩ := Engine.conclude_of_closed h hf
  simp only [Setup.reported, hconclude, haccepted]
  exact ⟨_, rfl⟩

theorem balanced_of_plain
    (h : (Setup.ofTape length hl limit).Gives script input (.ok (out, tally))) :
    Bracket.Balanced (Bracket.ofBytes script) := by
  obtain ⟨o, hsteps, hreported⟩ := gives_iff.mp h
  cases o with
  | fault cause e => cases hreported
  | ok e =>
      have hopen := openLoops_of_reported hreported
      obtain ⟨e', hsteps', -, hskeleton⟩ := steps_unlimited hsteps
      have hdepth := openLoops_of_steps hsteps'
      rw [hskeleton, hopen] at hdepth
      rw [Bracket.Balanced, ← Bracket.ofCommands_builtin]
      exact hdepth

theorem twoPass_of_plain
    (h : (Setup.ofTape length hl limit).Gives script input (.ok (out, tally))) :
    Gives script input length (.ok out) := by
  obtain ⟨table, hjump⟩ := (exists_jumpTable_iff script).mpr (balanced_of_plain h)
  obtain ⟨o, hsteps, hreported⟩ := gives_iff.mp h
  cases o with
  | fault cause e => cases hreported
  | ok e =>
      obtain ⟨e', hsteps', hdevice, -⟩ := steps_unlimited hsteps
      obtain ⟨r, hr, hanswers⟩ := (matches_whole input hl hjump).left _ hsteps'
      cases hanswers with
      | @ok s p hmirrors =>
          have hmirrors' : Mirrors length #[] e.device s := hdevice ▸ hmirrors
          obtain ⟨tally', hclosed⟩ := reported_of_closed (openLoops_of_reported hreported)
            hmirrors'.infallible.flushError
          rw [hreported] at hclosed
          obtain ⟨rfl, -⟩ := Prod.mk.inj (Except.ok.inj hclosed)
          refine (twoPass_gives_iff hjump).mpr ⟨_, hr, congrArg Except.ok ?_⟩
          rw [hmirrors'.output, Array.empty_append]

theorem plain_of_twoPass (hl : 0 < length) (h : Gives script input length (.ok out)) :
    ∃ tally, (Setup.ofTape length hl none).Gives script input (.ok (out, tally)) := by
  have hbalanced := balanced_of_gives h
  obtain ⟨table, hjump⟩ := (exists_jumpTable_iff script).mpr hbalanced
  obtain ⟨r, hr, hout⟩ := (twoPass_gives_iff hjump).mp h
  obtain ⟨o, hsteps, hanswers⟩ := (matches_whole input hl hjump).right r hr
  cases o with
  | fault cause e =>
      cases hanswers with
      | error hcause => cases hout
  | ok e =>
      cases hanswers with
      | @ok s p hmirrors =>
          obtain rfl := Except.ok.inj hout
          have houtput : e.device.sink.accepted = #[] ++ s.output := hmirrors.output
          obtain ⟨tally, hreported⟩ := reported_of_closed
            (openLoops_of_balanced hbalanced hsteps) hmirrors.infallible.flushError
          refine ⟨tally, gives_iff.mpr ⟨_, hsteps, hreported.trans ?_⟩⟩
          rw [houtput, Array.empty_append]

/-! ## Runs that fail or never end -/

theorem SameCause.unique {n : Nat} {failure : Failure} {cause cause' : Fault}
    (h : SameCause n failure cause) (h' : SameCause n failure cause') : cause = cause' := by
  cases h <;> cases h' <;> rfl

theorem SameCause.ne_limitReached {n : Nat} {failure : Failure} (h : SameCause n failure cause)
    (k : Nat) : cause ≠ .limitReached k := by
  cases h <;> exact fun heq => Fault.noConfusion heq

/-- A run of a balanced script fails if and only if the pointer leaves the tape. -/
theorem plain_error_iff (hl : 0 < length) (hbalanced : Bracket.Balanced (Bracket.ofBytes script)) :
    (Setup.ofTape length hl none).Gives script input (.error cause) ↔
      ∃ failure, Gives script input length (.error failure) ∧ SameCause length failure cause := by
  obtain ⟨table, hjump⟩ := (exists_jumpTable_iff script).mpr hbalanced
  have hmatches := matches_whole input hl hjump
  constructor
  · intro h
    obtain ⟨o, hsteps, hreported⟩ := gives_iff.mp h
    obtain ⟨r, hr, hanswers⟩ := hmatches.left o hsteps
    cases o with
    | ok e =>
        cases hanswers with
        | ok hmirrors =>
            obtain ⟨tally, hclosed⟩ := reported_of_closed
              (openLoops_of_balanced hbalanced hsteps) hmirrors.infallible.flushError
            rw [hreported] at hclosed
            cases hclosed
    | fault cause' e =>
        obtain rfl := Except.error.inj hreported
        cases hanswers with
        | @error failure _ _ hcause =>
            exact ⟨failure, (twoPass_gives_iff hjump).mpr ⟨_, hr, rfl⟩, hcause⟩
  · intro h
    obtain ⟨failure, h, hcause⟩ := h
    obtain ⟨r, hr, hanswer⟩ := (twoPass_gives_iff hjump).mp h
    obtain ⟨o, hsteps, hanswers⟩ := hmatches.right r hr
    cases o with
    | ok e =>
        cases hanswers with
        | ok hmirrors => cases hanswer
    | fault cause' e =>
        cases hanswers with
        | error hcause' =>
            obtain rfl := Except.error.inj hanswer
            obtain rfl := hcause'.unique hcause
            exact gives_iff.mpr ⟨_, hsteps, rfl⟩

theorem outside_below (n : Nat) : Fault.outside (-1) n = .outOfRange (-1) n := by
  rw [Fault.outside, Fault.reportable_of_le (by decide) (by decide)]

theorem outside_length_ne (n : Nat) : Fault.outside n n ≠ .outOfRange (-1) n := by
  intro h
  have hposition := (Fault.outOfRange.inj h).1
  rw [Fault.reportable, Int64.toInt_maxValue] at hposition
  omega

theorem sameCause_belowZero_iff {n : Nat} {failure : Failure} :
    SameCause n failure (.outOfRange (-1) n) ↔ ∃ position, failure = .belowZero position := by
  constructor
  · intro h
    generalize hcause : Fault.outOfRange (-1) n = cause at h
    cases h with
    | pastEnd position => exact absurd hcause.symm (outside_length_ne n)
    | belowZero position => exact ⟨position, rfl⟩
  · rintro ⟨position, rfl⟩
    rw [← outside_below]
    exact .belowZero position

theorem sameCause_pastEnd_iff {n : Nat} {failure : Failure} :
    SameCause n failure (.outside n n) ↔ ∃ position, failure = .pastEnd position := by
  constructor
  · intro h
    generalize hcause : Fault.outside n n = cause at h
    cases h with
    | pastEnd position => exact ⟨position, rfl⟩
    | belowZero position =>
        rw [outside_below] at hcause
        exact absurd hcause (outside_length_ne n)
  · rintro ⟨position, rfl⟩
    exact .pastEnd position

/-- A run of a balanced script never ends if and only if it reaches every limit. -/
theorem diverges_iff (hl : 0 < length) (hbalanced : Bracket.Balanced (Bracket.ofBytes script)) :
    (∀ answer, ¬Gives script input length answer) ↔
      ∀ k, (Setup.ofTape length hl (some k)).Gives script input (.error (.limitReached k)) := by
  obtain ⟨table, hjump⟩ := (exists_jumpTable_iff script).mpr hbalanced
  have hmatches := matches_whole input hl hjump
  constructor
  · intro h k
    obtain ⟨o, fuel, ho⟩ := Engine.exists_steps_limited
      (e := { device := ⟨.blank length hl, .ofBytes input, {}⟩ }) rfl
      (Dialect.builtin.commandsOf script) k
    rcases Engine.steps_limited_or rfl ho with ⟨o', ho', -⟩ | ⟨m, rfl, -⟩
    · obtain ⟨r, hr, -⟩ := hmatches.left o' ⟨fuel, ho'⟩
      exact absurd ((twoPass_gives_iff hjump).mpr ⟨r, hr, rfl⟩) (h _)
    · exact gives_iff.mpr ⟨_, ⟨fuel, ho⟩, rfl⟩
  · intro h answer hgives
    obtain ⟨r, hr, -⟩ := (twoPass_gives_iff hjump).mp hgives
    obtain ⟨o, ⟨fuel, ho⟩, hanswers⟩ := hmatches.right r hr
    obtain ⟨o', hsteps, hreported⟩ := gives_iff.mp (h o.state.executed)
    have hlimited := Engine.steps_limited rfl ho (Nat.le_refl _)
    obtain rfl := Engine.Steps.unique hsteps ⟨fuel, hlimited⟩
    cases o with
    | ok e =>
        cases hanswers with
        | ok hmirrors =>
            have hopen := openLoops_of_balanced hbalanced ⟨fuel, ho⟩
            obtain ⟨tally, hclosed⟩ := reported_of_closed (e := e.limited e.executed) hopen
              hmirrors.infallible.flushError
            cases hclosed.symm.trans hreported
    | fault cause e =>
        cases hanswers with
        | error hcause => exact hcause.ne_limitReached _ (Except.error.inj hreported)

/-- A balanced script answers the same in one pass and in two: the same output, the same
failure at either end of the tape, or none at all, and then one pass reaches every limit. A
script that is not balanced ends well in neither. -/
theorem run_agrees (length : Nat) (hl : 0 < length) (script input : List UInt8) :
    let plain limit answer := (Setup.ofTape length hl limit).Gives script input answer
    let twoPass answer := Gives script input length answer
    (∀ out, twoPass (.ok out) → ∃ tally, plain none (.ok (out, tally))) ∧
    (∀ limit out tally, plain limit (.ok (out, tally)) → twoPass (.ok out)) ∧
    (Bracket.Balanced (Bracket.ofBytes script) →
      ((∃ position, twoPass (.error (.belowZero position))) ↔
        plain none (.error (.outOfRange (-1) length))) ∧
      ((∃ position, twoPass (.error (.pastEnd position))) ↔
        plain none (.error (.outside length length))) ∧
      (∀ cause, plain none (.error cause) →
        cause = .outOfRange (-1) length ∨ cause = .outside length length) ∧
      ((∀ answer, ¬twoPass answer) ↔ ∀ k, plain (some k) (.error (.limitReached k)))) ∧
    (¬Bracket.Balanced (Bracket.ofBytes script) →
      ∀ out, ¬twoPass (.ok out) ∧ ∀ limit tally, ¬plain limit (.ok (out, tally))) ∧
    ((length : Int) ≤ Int64.maxValue.toInt →
      Fault.outside length length = .outOfRange length length) := by
  intro plain twoPass
  refine ⟨fun out => plain_of_twoPass hl, fun limit out tally => twoPass_of_plain, ?_, ?_, ?_⟩
  · intro hbalanced
    refine ⟨?_, ?_, ?_, diverges_iff hl hbalanced⟩
    · refine Iff.trans ?_ (plain_error_iff hl hbalanced).symm
      simp only [sameCause_belowZero_iff]
      constructor
      · exact fun ⟨position, h⟩ => ⟨_, h, position, rfl⟩
      · rintro ⟨_, h, position, rfl⟩
        exact ⟨position, h⟩
    · refine Iff.trans ?_ (plain_error_iff hl hbalanced).symm
      simp only [sameCause_pastEnd_iff]
      constructor
      · exact fun ⟨position, h⟩ => ⟨_, h, position, rfl⟩
      · rintro ⟨_, h, position, rfl⟩
        exact ⟨position, h⟩
    · intro cause h
      obtain ⟨failure, -, hcause⟩ := (plain_error_iff hl hbalanced).mp h
      cases hcause with
      | pastEnd position => exact .inr rfl
      | belowZero position => exact .inl (outside_below length)
  · intro hbalanced out
    exact ⟨fun h => hbalanced (balanced_of_gives h),
      fun limit tally h => hbalanced (balanced_of_plain h)⟩
  · intro hlt
    have hlow : Int64.minValue.toInt ≤ length :=
      Int.le_trans (by decide) (Int.natCast_nonneg length)
    rw [Fault.outside, Fault.reportable_of_le hlow hlt]

theorem run_agrees_increment :
    0 < 1 ∧ ∃ tally, (Setup.ofTape 1 Nat.one_pos none).Gives ['+'.toUInt8, '.'.toUInt8] []
      (.ok (#[1], tally)) := by
  have h := run_agrees 1 Nat.one_pos ['+'.toUInt8, '.'.toUInt8] []
  exact ⟨by decide, h.1 #[1] ⟨3, rfl⟩⟩

end TwoPass

end TapeScript
