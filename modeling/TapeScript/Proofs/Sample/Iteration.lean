import TapeScript.Proofs.Engine.Tracing
import TapeScript.Proofs.Sample.Counting
import TapeScript.Proofs.Sample.Soundness

/-! # Generated scripts loop as drawn

Whenever a counted loop of a generated script is reached, it takes as many rounds as were drawn
for it. No other loop is ever entered. -/

namespace TapeScript

/-- The run steps through its whole script, and executes this. -/
def Setup.Executes (setup : Setup) (script input : Source) (output : Sink) (log : List Act) :
    Prop :=
  ∃ e, Engine.Logs (setup.commands script) (setup.start input output) log e

namespace Sample

open TapeScript.Bracket Script

/-! ## The brackets of a plan -/

variable {shape : Shape} {depth items : Nat} {plan : Plan} {l : Loop} {n m q : Nat}
  {xs ys : List UInt8}

/-- Among the commands of these bytes, from the position `n` on, the loop lies between a pair of
brackets. -/
def Loop.Pairs (l : Loop) (n : Nat) (bytes : List UInt8) : Prop :=
  ∃ pre body post, bytes = pre ++ '['.toUInt8 :: body ++ ']'.toUInt8 :: post ∧
    Balanced (ofBytes body) ∧ l.opening = n + size pre ∧ l.closing = l.opening + 1 + size body

theorem Loop.Pairs.append_right (h : l.Pairs n xs) (ys : List UInt8) : l.Pairs n (xs ++ ys) := by
  obtain ⟨pre, body, post, rfl, h⟩ := h
  exact ⟨pre, body, post ++ ys, by simp, h⟩

theorem Loop.Pairs.append_left (xs : List UInt8) (h : l.Pairs m ys) (hm : m = n + size xs) :
    l.Pairs n (xs ++ ys) := by
  obtain ⟨pre, body, post, rfl, hbody, hopening, hclosing⟩ := h
  refine ⟨xs ++ pre, body, post, by simp, hbody, ?_, hclosing⟩
  rw [hopening, hm, size_append, Nat.add_assoc]

/-- The loops of a plan are pairs of brackets of its script. -/
theorem Plan.pairs (hfits : plan.Fits shape depth items) :
    ∀ l ∈ plan.loops n q, l.Pairs n plan.render := by
  have hopen : Dialect.builtin.find? '['.toUInt8 = some _ := rfl
  have hclear : size clearNext = 4 := rfl
  induction plan generalizing depth items n q with
  | done => exact fun l hl => absurd hl List.not_mem_nil
  | byte b plan ih => exact fun l hl => (ih hfits.2.2 l hl).append_left [b] rfl
  | dead filler plan ih =>
      obtain ⟨-, ⟨_, -, hfiller⟩, hplan⟩ := hfits
      refine List.forall_mem_cons.mpr ⟨?_, fun l hl => ?_⟩
      · refine ⟨clearNext, filler.render, '<'.toUInt8 :: plan.render, by simp [render],
          (Filler.nests hfiller).balanced, ?_, rfl⟩
        exact hclear ▸ rfl
      · have hend : size [']'.toUInt8, '<'.toUInt8] = 2 := rfl
        have hrest := (ih hplan l hl).append_left (n := n)
          (clearNext ++ '['.toUInt8 :: (filler.render ++ [']'.toUInt8, '<'.toUInt8]))
          (by rw [size_append, size_cons hopen, size_append, hclear, hend]; omega)
        simpa [render] using hrest
  | counted count inner plan ihinner ihplan =>
      obtain ⟨-, -, -, ⟨-, hinner⟩, hplan⟩ := hfits
      have hplus := size_replicate_plus count
      have hbefore : size (clearNext ++ List.replicate count '+'.toUInt8) = 4 + count := by
        rw [size_append, hclear, hplus]
      refine List.forall_mem_cons.mpr ⟨?_, fun l hl => ?_⟩
      · have hbody : ofBytes ('>'.toUInt8 :: (inner.render ++ ['<'.toUInt8, '-'.toUInt8])) =
            ofBytes inner.render := by
          have hfirst : ofByte? '>'.toUInt8 = none := rfl
          have hlast : ofBytes ['<'.toUInt8, '-'.toUInt8] = [] := rfl
          rw [ofBytes_cons_of_none hfirst, ofBytes_append, hlast, List.append_nil]
        have hsize : size ('>'.toUInt8 :: (inner.render ++ ['<'.toUInt8, '-'.toUInt8])) =
            3 + size inner.render := by
          have hfirst : Dialect.builtin.find? '>'.toUInt8 = some _ := rfl
          have hlast : size ['<'.toUInt8, '-'.toUInt8] = 2 := rfl
          rw [size_cons hfirst, size_append, hlast]
          omega
        refine ⟨clearNext ++ List.replicate count '+'.toUInt8, _, '<'.toUInt8 :: plan.render,
          by simp [render, enter, leave], hbody ▸ (Plan.nests hinner).balanced, ?_, ?_⟩
        · rw [hbefore, Nat.add_assoc]
        · rw [hsize]
          dsimp only
          omega
      · have henter : size enter = 2 := rfl
        rcases List.mem_append.mp hl with hl | hl
        · have hin := (ihinner hinner l hl).append_right (leave ++ plan.render)
          have hwhole := hin.append_left (n := n)
            (clearNext ++ List.replicate count '+'.toUInt8 ++ enter)
            (by rw [size_append, hbefore, henter]; omega)
          simpa [render] using hwhole
        · have hleave : size leave = 4 := rfl
          have hwhole := (ihplan hplan l hl).append_left (n := n)
            (clearNext ++ List.replicate count '+'.toUInt8 ++ enter ++ inner.render ++ leave)
            (by simp only [size_append _ enter, size_append _ inner.render, size_append _ leave,
                  hbefore, henter, hleave]; omega)
          simpa [render] using hwhole

/-! ## Whole runs -/

/-- What the run executes goes through every loop as often as it is drawn, enters no others, and
never enters more of them at once than are nested. -/
structure Orderly (shape : Shape) (plan : Plan) (log : List Act) : Prop where
  visits : ∀ l ∈ plan.loops 0 0, ∀ xs a ys, log = xs ++ a :: ys → a.position = l.opening →
    (∀ b ∈ xs.getLast?, b.position ≠ l.closing) →
    ∃ block rest, a :: ys = block ++ rest ∧ l.Visit block
  entered : ∀ a ∈ log, a.enters = true →
    ∃ l ∈ plan.loops 0 0, l.count ≠ 0 ∧ a.position = l.opening
  dead : ∀ l ∈ plan.loops 0 0, l.count = 0 → ∀ a ∈ log,
    ¬ (l.opening < a.position ∧ a.position ≤ l.closing)
  depth : ∀ xs ys, log = xs ++ ys →
    xs.countP (·.enters) ≤ xs.countP (·.ends) + shape.depth

theorem Sound.orderly {log : List Act} (h : Sound 0 m (plan.loops 0 0) shape.depth log) :
    Orderly shape plan log where
  visits := fun l hl xs a ys hlog ha hlast =>
    (h.visited l hl).exists_visit (h.within l hl).2.1 hlog ha hlast
  entered := h.entered
  dead := fun l hl hcount a ha hinside => by
    rcases (h.visited l hl).outside_or_opening hcount ha with hout | ⟨hposition, -⟩
    · rcases hout with hout | hout <;> omega
    · omega
  depth := h.rises.le

/-- The script of the plan runs well on every tape that is long enough, and its loops run as they
are drawn. -/
structure LoopsAsDrawn (shape : Shape) (plan : Plan) : Prop where
  pairs : ∀ l ∈ plan.loops 0 0, l.Pairs 0 plan.render
  runs : ∀ (length : Nat) (hl : shape.topCell < length) (source input : Source) (output : Sink),
    source.delivered = plan.render → source.broken? = none →
    Device.Infallible ⟨.blank length (Nat.zero_lt_of_lt hl), input, output⟩ →
    let setup := Setup.ofTape length (Nat.zero_lt_of_lt hl) none
    ∃ e log, setup.Ends source input output (.ok e) ∧
      (∀ log', setup.Executes source input output log' ↔ log' = log) ∧ Orderly shape plan log

variable {length : Nat} {hl : 0 < length} {source input : Source} {output : Sink}

theorem clear_blank (hl : 0 < length) (input : Source) (output : Sink) :
    Clear 0 ⟨.blank length hl, input, output⟩ := by
  intro j byte hbyte
  rw [Tape.blank, Array.getElem?_replicate] at hbyte
  split at hbyte
  · exact (Option.some.inj hbyte).symm
  · cases hbyte

theorem exists_log_of_allows (hplan : shape.Allows plan) (hsize : shape.topCell < length)
    (hdelivered : source.delivered = plan.render)
    (hd : Device.Infallible ⟨.blank length hl, input, output⟩) :
    ∃ log, (Setup.ofTape length hl none).Executes source input output log ∧
      Orderly shape plan log := by
  have hcells := lt_size_blank hl hsize
  obtain ⟨d', ⟨log, hwalks, hsound⟩, -⟩ := Plan.travels (q := 0) 0 hplan.2 ⟨hd, rfl⟩
    (clear_blank hl input output) (by rwa [Nat.zero_add])
  have htraces := hwalks .done [] d' (.done _ d')
  have hrenders := Plan.renders hplan.2
  obtain ⟨e, hlogs, -⟩ := Engine.exists_logs_of_traces (hrenders.proper .done .done) htraces
  rw [hrenders.toCommands, Script.toCommands, List.append_nil, List.append_nil] at hlogs
  refine ⟨log, ⟨e, ?_⟩, hsound.orderly⟩
  rw [Setup.commands, hdelivered]
  exact hlogs

/-- Every counted loop of a script that a shape allows takes its rounds whenever it is reached,
and no other loop is entered; so it is for all scripts of a seed, whatever was drawn. -/
theorem generated_loops_as_drawn (shape : Shape) :
    (∀ plan, shape.Allows plan → LoopsAsDrawn shape plan) ∧
    ∀ tries count seed drawn, scripts shape tries count seed = some drawn →
      ∃ plans r, (drawPlans shape tries count).run (.ofSeed seed) = some (plans, r) ∧
        drawn = plans.map Plan.render ∧ ∀ plan ∈ plans, LoopsAsDrawn shape plan := by
  have hloops (plan : Plan) (hplan : shape.Allows plan) : LoopsAsDrawn shape plan := by
    refine ⟨Plan.pairs hplan.2, fun length hl source input output hdelivered hbroken hd => ?_⟩
    obtain ⟨log, hexecutes, horderly⟩ := exists_log_of_allows hplan hl hdelivered hd
    obtain ⟨e, hends, -⟩ := ends_of_allows hplan hl hdelivered hbroken hd
    refine ⟨e, log, hends, fun log' => ⟨fun h => ?_, fun h => h ▸ hexecutes⟩, horderly⟩
    obtain ⟨_, hlogs⟩ := hexecutes
    obtain ⟨_, hlogs'⟩ := h
    exact (hlogs'.unique hlogs).1
  refine ⟨hloops, fun tries count seed drawn h => ?_⟩
  obtain ⟨⟨plans, r⟩, hrun, rfl⟩ := Option.map_eq_some_iff.mp h
  exact ⟨plans, r, hrun, rfl, fun plan hplan =>
    hloops plan (drawPlans_yields shape tries count _ _ _ hrun plan hplan)⟩

/-- A counted loop that is drawn once, with a single byte in its body. -/
theorem generated_loops_as_drawn_once :
    let shape : Shape := { depth := 1, width := 1, repeats := 1 }
    let plan : Plan := .counted 1 (.byte '+'.toUInt8 .done) .done
    shape.Allows plan ∧ plan.loops 0 0 = [⟨5, 10, 1, 1⟩] ∧
      scripts shape 4 1 1 = some [plan.render] ∧
      (∃ plans r, (drawPlans shape 4 1).run (.ofSeed 1) = some (plans, r) ∧
        [plan.render] = plans.map Plan.render ∧ ∀ drawn ∈ plans, LoopsAsDrawn shape drawn) ∧
      LoopsAsDrawn shape plan ∧
      ∃ log, (Setup.ofTape 5 (Nat.succ_pos 4) none).Executes (.ofBytes plan.render) (.ofBytes []) {}
        log ∧ Orderly shape plan log := by
  intro shape plan
  have hbody : 0 < 1 ∧ (Plan.byte '+'.toUInt8 .done).Fits shape 0 1 :=
    ⟨by decide, by decide, .inl (by decide), trivial⟩
  have hplan : shape.Allows plan := ⟨by decide, by decide, by decide, by decide, hbody, trivial⟩
  have hdrawn : scripts shape 4 1 1 = some [plan.render] := by decide +kernel
  have hloops := (generated_loops_as_drawn shape).1 plan hplan
  have hscripts := (generated_loops_as_drawn shape).2 4 1 1 _ hdrawn
  obtain ⟨hdelivered, hbroken⟩ := Source.delivered_ofBytes plan.render
  obtain ⟨e, log, -, hexecutes, horderly⟩ := hloops.runs 5 (by decide) _ (.ofBytes []) {}
    hdelivered hbroken ⟨rfl, (Option.some_ne_none 0).symm, rfl, rfl⟩
  exact ⟨hplan, by decide, hdrawn, hscripts, hloops, log, (hexecutes log).mpr rfl, horderly⟩

end Sample

end TapeScript
