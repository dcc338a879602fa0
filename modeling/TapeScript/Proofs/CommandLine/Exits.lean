import TapeScript.Proofs.CommandLine.Several
import TapeScript.Proofs.Run.Outline
import TapeScript.Proofs.Run.Silence
import TapeScript.Proofs.Sample.Tries

/-! # How commands end

A command succeeds or fails with a complaint. If standard output refuses every byte then it
succeeds exactly where it would have had nothing to show. Two things are not complained about: a
listing that is refused, and memory that cannot be addressed. -/

namespace TapeScript

open Outcome

namespace CommandLine

variable {host : Host} {files : Files} {path script text : String} {others paths : List String}
  {input : Option String} {tape : TapeOptions} {setup : Setup} {sent bytes : List UInt8}
  {console : Console} {invocation : Invocation} {exit : Exit} {fuel : Nat}

/-! ## Ordinary and silent exits -/

namespace Exit

/-- The command succeeded, or it failed with a complaint. -/
def Ordinary (exit : Exit) : Prop :=
  exit.status = 0 ∨ exit.status = 1 ∧ ∃ text, exit.stderr = "error: " ++ text ++ "\n"

/-- The command succeeded and showed nothing. -/
def Silent (exit : Exit) : Prop := exit.status = 0 ∧ exit.stdout = []

theorem ordinary_success (stdout : List UInt8) : (success stdout).Ordinary := .inl rfl

theorem ordinary_failure (stdout : List UInt8) (text : String) : (failure stdout text).Ordinary :=
  .inr ⟨rfl, text, rfl⟩

theorem not_ordinary_abort (report : String) : ¬(abort report).Ordinary := by
  rintro (h | ⟨h, -⟩) <;> cases h

theorem Ordinary.ne_refusedListing (h : exit.Ordinary) (host : Host) (text : String) :
    exit ≠ .refusedListing host text := by
  rintro rfl
  exact not_ordinary_abort _ h

theorem silent_success_iff {stdout : List UInt8} : (success stdout).Silent ↔ stdout = [] :=
  and_iff_right rfl

theorem not_silent_failure (stdout : List UInt8) (text : String) :
    ¬(failure stdout text).Silent := fun h => Nat.one_ne_zero h.1

theorem status_ofRun (path : String) (o : Outcome Engine) :
    (ofRun path o).status = 0 ↔ o.fault? = none := by
  cases o with
  | ok e => exact iff_of_true rfl rfl
  | fault cause e => exact iff_of_false Nat.one_ne_zero nofun

theorem ordinary_ofRun (path : String) (o : Outcome Engine) : (ofRun path o).Ordinary := by
  cases o with
  | ok e => exact ordinary_success _
  | fault cause e => exact ordinary_failure _ _

end Exit

theorem runSingle_of_ok {source : Source} (h : files path = .ok source) (fuel : Nat)
    (console : Console) (setup : Setup) (input : List UInt8) :
    runSingle fuel files console setup input path =
      (setup.run fuel source (.ofBytes input) console.sink).map (Exit.ofRun path) := by
  simp only [runSingle, h]
  rfl

theorem ordinary_deliver (results : List (String × Except Fault (Array UInt8 × Tally)))
    (outlet : Outlet) : (deliver results outlet).Ordinary := by
  induction results generalizing outlet with
  | nil =>
      rw [deliver]
      split
      · exact Exit.ordinary_success _
      · exact Exit.ordinary_failure _ _
  | cons result results ih =>
      obtain ⟨path, cause | ⟨output, tally⟩⟩ := result
      · exact Exit.ordinary_failure _ _
      · rw [deliver]
        split
        · exact ih _
        · exact Exit.ordinary_failure _ _

/-! ## One computation for both consoles -/

/-- The command ends without a working standard output if it ends with one, and it succeeds if
and only if it succeeds there and shows nothing. -/
structure Muted (refused working : Nat → Option Exit) : Prop where
  ends : ∀ ⦃exit⦄, Halts working exit → ∃ exit', Halts refused exit'
  success_iff : ∀ ⦃exit⦄, Halts refused exit →
    (exit.status = 0 ↔ ∃ exit', Halts working exit' ∧ exit'.Silent)

section Map

variable {ρ : Type} {run : Nat → Option ρ} {f g : ρ → Exit}

/-- What is said of the results is said of the exits. -/
theorem halts_map_iff_of_steady (hs : Steady run) {P Q : Exit → Prop}
    (h : ∀ r, P (f r) ↔ Q (g r)) (hexit : Halts (fun fuel => (run fuel).map f) exit) :
    P exit ↔ ∃ exit', Halts (fun fuel => (run fuel).map g) exit' ∧ Q exit' := by
  obtain ⟨r, hr, rfl⟩ := halts_map.mp hexit
  rw [h]
  constructor
  · exact fun hQ => ⟨g r, hr.map g, hQ⟩
  · rintro ⟨exit', hexit', hQ⟩
    obtain ⟨r', hr', rfl⟩ := halts_map.mp hexit'
    obtain rfl := hr.unique hs hr'
    exact hQ

theorem Muted.of_map (hs : Steady run) (h : ∀ r, (f r).status = 0 ↔ (g r).Silent) :
    Muted (fun fuel => (run fuel).map f) (fun fuel => (run fuel).map g) where
  ends := by
    intro exit hexit
    obtain ⟨r, hr, -⟩ := halts_map.mp hexit
    exact ⟨f r, hr.map f⟩
  success_iff _ := halts_map_iff_of_steady (P := (·.status = 0)) hs h

end Map

/-- A command that does not succeed, whatever the console. -/
theorem Muted.of_const (hstatus : exit.status ≠ 0) :
    Muted (fun _ => some exit) (fun _ => some exit) where
  ends exit h := ⟨exit, h⟩
  success_iff exit' h := by
    obtain rfl := halts_some.mp h
    refine iff_of_false hstatus ?_
    rintro ⟨exit, h', hsilent⟩
    obtain rfl := halts_some.mp h'
    exact hstatus hsilent.1

/-- A command that fails before it shows anything. -/
theorem Muted.of_failure (text : String) :
    Muted (fun _ => some (.failure [] text)) (fun _ => some (.failure [] text)) :=
  .of_const Nat.one_ne_zero

/-! ## Runs -/

theorem ordinary_runSingle (h : runSingle fuel files console setup bytes path = some exit) :
    exit.Ordinary := by
  cases hfile : files path with
  | error text =>
      simp only [runSingle, hfile] at h
      exact Option.some.inj h ▸ Exit.ordinary_failure _ _
  | ok source =>
      rw [runSingle_of_ok hfile] at h
      obtain ⟨o, -, rfl⟩ := Option.map_eq_some_iff.mp h
      exact Exit.ordinary_ofRun path o

theorem ordinary_runSeveral (h : runSeveral fuel files console setup bytes paths = some exit) :
    exit.Ordinary := by
  cases hscripts : paths.mapM (readWhole files) with
  | error text =>
      simp only [runSeveral, hscripts] at h
      exact Option.some.inj h ▸ Exit.ordinary_failure _ _
  | ok scripts =>
      simp only [runSeveral, hscripts] at h
      obtain ⟨results, -, rfl⟩ := Option.map_eq_some_iff.mp h
      exact ordinary_deliver _ _

theorem ordinary_respond_run
    (h : respond host fuel files console (.run script others input tape) = some exit) :
    exit.Ordinary := by
  rcases respond_run_cases host files input tape with
    ⟨text, hrefused⟩ | ⟨setup, bytes, -, hone, hmany⟩
  · rw [hrefused] at h
    exact Option.some.inj h ▸ Exit.ordinary_failure _ _
  · cases others with
    | nil => exact ordinary_runSingle (hone fuel console script ▸ h)
    | cons other others =>
        rw [hmany _ _ _ _ (List.cons_ne_nil other others)] at h
        exact ordinary_runSeveral h

/-- All scripts succeeded, and none of them wrote anything. -/
def Quiet (results : List (String × Except Fault (Array UInt8 × Tally))) : Prop :=
  ∀ result ∈ results, ∃ tally, result.2 = .ok (#[], tally)

theorem quiet_cons_ok {results : List (String × Except Fault (Array UInt8 × Tally))}
    {output : Array UInt8} {tally : Tally} :
    Quiet ((path, .ok (output, tally)) :: results) ↔ output.toList = [] ∧ Quiet results := by
  rw [Quiet, List.forall_mem_cons, Array.toList_eq_nil_iff]
  refine and_congr_left fun _ => ⟨?_, ?_⟩
  · rintro ⟨tally', ⟨⟩⟩
    rfl
  · rintro rfl
    exact ⟨tally, rfl⟩

theorem not_quiet_cons_error {results : List (String × Except Fault (Array UInt8 × Tally))}
    {cause : Fault} : ¬Quiet ((path, .error cause) :: results) := by
  intro h
  obtain ⟨tally, ⟨⟩⟩ := h _ List.mem_cons_self

/-- Delivering to a console that works. -/
theorem silent_deliver_iff (results : List (String × Except Fault (Array UInt8 × Tally)))
    {outlet : Outlet} (h : outlet.Carries sent) :
    (deliver results outlet).Silent ↔ sent = [] ∧ Quiet results := by
  induction results generalizing sent outlet with
  | nil =>
      obtain ⟨c, hc, hshows⟩ := h.close
      rw [deliver, hc]
      dsimp only
      rw [Exit.silent_success_iff, hshows.shown]
      exact (and_iff_left (List.forall_mem_nil _)).symm
  | cons result results ih =>
      obtain ⟨path, cause | ⟨output, tally⟩⟩ := result
      · exact iff_of_false (Exit.not_silent_failure _ _) fun hquiet =>
          not_quiet_cons_error hquiet.2
      · obtain ⟨outlet', hwrite, houtlet'⟩ := Outlet.conveys_write h output.toList
        rw [deliver, hwrite]
        dsimp only
        rw [ih houtlet', List.append_eq_nil_iff, quiet_cons_ok, and_assoc]

/-- Delivering to a console that refuses every byte. -/
theorem status_deliver_iff (results : List (String × Except Fault (Array UInt8 × Tally)))
    {outlet : Outlet} (h : outlet.Withholds sent) :
    (deliver results outlet).status = 0 ↔ sent = [] ∧ Quiet results := by
  induction results generalizing sent outlet with
  | nil =>
      rw [deliver]
      rcases h.close with ⟨c, hc, hnone⟩ | ⟨text, htext, hsome⟩
      · rw [hc]
        exact iff_of_true rfl ⟨hnone, List.forall_mem_nil _⟩
      · rw [htext]
        exact iff_of_false Nat.one_ne_zero fun hquiet => hsome hquiet.1
  | cons result results ih =>
      obtain ⟨path, cause | ⟨output, tally⟩⟩ := result
      · exact iff_of_false Nat.one_ne_zero fun hquiet => not_quiet_cons_error hquiet.2
      · rw [quiet_cons_ok, ← and_assoc, ← List.append_eq_nil_iff, deliver]
        rcases h.write output.toList with ⟨outlet', hwrite, houtlet'⟩ | ⟨text, htext, hsome⟩
        · rw [hwrite]
          exact ih houtlet'
        · rw [htext]
          exact iff_of_false Nat.one_ne_zero fun hquiet => hsome hquiet.1

theorem muted_runSeveral (files : Files) (setup : Setup) (bytes : List UInt8) (text : String)
    (paths : List String) :
    Muted (fun fuel => runSeveral fuel files { refusal := some text } setup bytes paths)
      (fun fuel => runSeveral fuel files {} setup bytes paths) := by
  cases hscripts : paths.mapM (readWhole files) with
  | error text' =>
      simp only [runSeveral, hscripts]
      exact .of_failure text'
  | ok scripts =>
      simp only [runSeveral, hscripts, Setup.runEach]
      have hsteady := steady_mapM (fun script => steady_runPlain setup script bytes) scripts
      refine .of_map hsteady fun results => ?_
      have hworking : (Outlet.ofConsole {}).Carries [] := .of_empty (.of_empty ⟨rfl, rfl⟩)
      have hrefused : (Outlet.ofConsole { refusal := some text }).Withholds [] :=
        .of_empty (.of_empty ⟨Option.some_ne_none text, rfl⟩)
      rw [status_deliver_iff _ hrefused, silent_deliver_iff _ hworking]

theorem givesUp_of_setup (h : tape.setup = .ok setup) :
    ∀ c ∈ setup.dialect.commands, c ∉ Command.builtins → Engine.GivesUp c := by
  have hdialect : setup.dialect = .builtin := by
    simp only [TapeOptions.setup, Setup.ofLength] at h
    split at h
    · exact Except.ok.inj h ▸ rfl
    · cases h
  intro c hc hn
  rw [hdialect] at hc
  exact absurd hc hn

theorem muted_runSingle (files : Files) (hsetup : tape.setup = .ok setup) (bytes : List UInt8)
    (text path : String) :
    Muted (fun fuel => runSingle fuel files { refusal := some text } setup bytes path)
      (fun fuel => runSingle fuel files {} setup bytes path) := by
  cases hfile : files path with
  | error text' =>
      simp only [runSingle, hfile]
      exact .of_failure (concerning path text')
  | ok source =>
      simp only [runSingle_of_ok hfile]
      have hstrict := givesUp_of_setup hsetup
      have hinput : (Source.ofBytes bytes).chunk ≠ some 0 := (Option.some_ne_none 0).symm
      constructor
      · intro exit hexit
        obtain ⟨o, ho, -⟩ := halts_map.mp hexit
        obtain ⟨o', ho'⟩ := Setup.exists_ends_refusing hstrict hinput text ho
        exact ⟨_, ho'.map _⟩
      · intro exit hexit
        obtain ⟨o, ho, rfl⟩ := halts_map.mp hexit
        rw [Exit.status_ofRun, Setup.ends_refusing hstrict hinput ho]
        constructor
        · rintro ⟨e, he, hsilent⟩
          refine ⟨_, he.map _, rfl, ?_⟩
          exact Array.toList_eq_nil_iff.mpr (not_not.mp hsilent)
        · rintro ⟨exit', hexit', hstatus, hstdout⟩
          obtain ⟨o', ho', rfl⟩ := halts_map.mp hexit'
          cases o' with
          | ok e => exact ⟨e, ho', not_not.mpr (Array.toList_eq_nil_iff.mp hstdout)⟩
          | fault cause e => cases hstatus

theorem muted_respond_run (host : Host) (files : Files) (text script : String)
    (others : List String) (input : Option String) (tape : TapeOptions) :
    Muted (respond host · files { refusal := some text } (.run script others input tape))
      (respond host · files {} (.run script others input tape)) := by
  rcases respond_run_cases host files input tape with
    ⟨text', hrefused⟩ | ⟨setup, bytes, hsetup, hone, hmany⟩
  · simp only [hrefused]
    exact .of_failure text'
  · cases others with
    | nil =>
        simp only [hone]
        exact muted_runSingle files hsetup bytes text script
    | cons other others =>
        simp only [hmany _ _ _ _ (List.cons_ne_nil other others)]
        exact muted_runSeveral files setup bytes text _

/-! ## Listings -/

namespace Exit

/-- What a command prints in one piece, or gives up over. -/
def printed (host : Host) (bytes : List UInt8) (console : Console) : Exit :=
  match console.write bytes with
  | .ok console => .success console.shown
  | .error text => .refusedListing host text

theorem printed_working (host : Host) (bytes : List UInt8) :
    printed host bytes {} = .success bytes := rfl

/-- What a command does with its listing, or with the reason why there is none. -/
def ofListing (host : Host) (console : Console) : Except String (List UInt8) → Exit
  | .error text => .failure [] text
  | .ok bytes => printed host bytes console

variable (host : Host) (listing : Except String (List UInt8)) (text : String)

theorem ordinary_ofListing : (ofListing host {} listing).Ordinary := by
  cases listing with
  | error text => exact ordinary_failure _ _
  | ok bytes => exact ordinary_success _

theorem status_ofListing_iff :
    (ofListing host { refusal := some text } listing).status = 0 ↔
      (ofListing host {} listing).Silent := by
  cases listing with
  | error text => exact iff_of_false Nat.one_ne_zero (not_silent_failure _ _)
  | ok bytes =>
      rw [ofListing, ofListing, printed_working, silent_success_iff]
      cases bytes with
      | nil => exact iff_of_true rfl rfl
      | cons byte bytes => exact iff_of_false nofun (List.cons_ne_nil byte bytes)

theorem ofListing_ordinary_or_eq_refusedListing :
    (ofListing host { refusal := some text } listing).Ordinary ∨
      ofListing host { refusal := some text } listing = .refusedListing host text := by
  cases listing with
  | error text => exact .inl (ordinary_failure _ _)
  | ok bytes =>
      cases bytes with
      | nil => exact .inl (ordinary_success [])
      | cons byte bytes => exact .inr rfl

/-- A listing is refused if there is something in it. -/
theorem ofListing_eq_refusedListing_iff :
    ofListing host { refusal := some text } listing = .refusedListing host text ↔
      (ofListing host {} listing).status = 0 ∧ (ofListing host {} listing).stdout ≠ [] := by
  cases listing with
  | error text' =>
      exact iff_of_false ((ordinary_failure _ _).ne_refusedListing host text) fun h =>
        Nat.one_ne_zero h.1
  | ok bytes =>
      cases bytes with
      | nil =>
          exact iff_of_false ((ordinary_success _).ne_refusedListing host text) fun h => h.2 rfl
      | cons byte bytes => exact iff_of_true rfl ⟨rfl, List.cons_ne_nil byte bytes⟩

end Exit

theorem steady_rows (setup : Setup) (source : Source) (input : List UInt8) :
    Steady (setup.rows · source input) := by
  simp only [Setup.rows_eq]
  exact (setup.steady_run _ _ _).map _

/-- What is printed of the rows of a script, or the report on the script. -/
def listed (path : String) : Except Fault (List Listing.Row) → Except String (List UInt8)
  | .error cause => .error (concerning path cause.message)
  | .ok rows => .ok (Listing.text rows).toUTF8.toList

/-- What is listed does not depend on the console. -/
theorem exists_respond_outline (host : Host) (files : Files) (path : String) (tape : TapeOptions) :
    ∃ run : Nat → Option (Except String (List UInt8)), Steady run ∧ ∀ fuel console,
      respond host fuel files console (.outline path tape) =
        (run fuel).map (Exit.ofListing host console) := by
  cases hsetup : tape.setup with
  | error cause =>
      refine ⟨fun _ => some (.error cause.message), steady_const _, fun fuel console => ?_⟩
      simp only [respond, respondOutline, hsetup]
      rfl
  | ok setup =>
      cases hfile : files path with
      | error text =>
          refine ⟨fun _ => some (.error (concerning path text)), steady_const _, ?_⟩
          intro fuel console
          simp only [respond, respondOutline, hsetup, hfile]
          rfl
      | ok source =>
          refine ⟨_, (steady_rows setup source []).map (listed path), fun fuel console => ?_⟩
          simp only [respond, respondOutline, hsetup, hfile, Option.map_map]
          congr 1
          funext rows
          cases rows with
          | error cause => rfl
          | ok rows => rfl

/-! ## Benchmarks -/

/-- What a command says of the runs of drawn scripts. -/
def Exit.ofBench (scripts : List (List UInt8))
    (results : List (Except Fault (Array UInt8 × Tally))) : Exit :=
  match results.mapM id with
  | .error cause => .failure [] cause.message
  | .ok outputs =>
    { status := 0, stderr := benchReport scripts (.sum (outputs.map (·.2))) }

theorem respondBench_eq (fuel : Nat) (seed : UInt64) (count depth width : Nat) :
    respondBench fuel seed count depth width =
      ((Sample.scripts { depth, width } fuel count seed).bind fun scripts =>
        (Setup.runEach {} fuel scripts ((List.range 256).map UInt8.ofNat)).map (scripts, ·)).map
          fun (scripts, results) => Exit.ofBench scripts results := by
  rw [respondBench, Option.map_bind]
  refine Option.bind_congr fun scripts _ => ?_
  rw [Function.comp_apply, Option.map_map]
  cases Setup.runEach {} fuel scripts ((List.range 256).map UInt8.ofNat) with
  | none => rfl
  | some results =>
      simp only [Option.bind_eq_bind, Option.bind_some, Option.map_some, Function.comp_apply,
        Exit.ofBench]
      cases results.mapM id with
      | error cause => rfl
      | ok outputs => rfl

theorem ordinary_ofBench (scripts : List (List UInt8))
    (results : List (Except Fault (Array UInt8 × Tally))) :
    (Exit.ofBench scripts results).Ordinary ∧ (Exit.ofBench scripts results).stdout = [] := by
  rw [Exit.ofBench]
  split
  · exact ⟨Exit.ordinary_failure _ _, rfl⟩
  · exact ⟨.inl rfl, rfl⟩

/-- Drawing scripts and running them. -/
theorem exists_respond_bench (host : Host) (seed : UInt64) (count depth width : Nat) :
    ∃ run : Nat → Option (List (List UInt8) × List (Except Fault (Array UInt8 × Tally))),
      Steady run ∧ ∀ fuel files console,
        respond host fuel files console (.bench seed count depth width) =
          (run fuel).map fun (scripts, results) => Exit.ofBench scripts results := by
  refine ⟨_, ?_, fun fuel _ _ => respondBench_eq fuel seed count depth width⟩
  refine (Sample.steady_scripts _ _ _).bind fun scripts => Steady.map ?_ _
  exact steady_mapM (fun script => steady_runPlain _ script _) scripts

/-! ## Memory -/

/-- More memory is asked for than can be addressed, and nothing is wrong before that. -/
def Exhausts (files : Files) (invocation : Invocation) : Prop :=
  invocation.fits = false ∧ prepare files invocation = .ok ()

theorem execute_of_exhausts (h : Exhausts files invocation) (host : Host) (fuel : Nat)
    (console : Console) :
    execute host fuel files console invocation = some (.exhausted host) := by
  simp only [execute, h.1, h.2, Bool.false_eq_true, if_false]

section Except

variable {α : Type} {x : Except String α} {next : Except String Unit} {f : String → String}

theorem eq_error_of_discard (h : discard x = .error text) : x = .error text := by
  cases x with
  | error text' => cases h; rfl
  | ok a => cases h

theorem eq_error_of_mapError (h : x.mapError f = .error text) :
    ∃ reason, x = .error reason ∧ text = f reason := by
  cases x with
  | error reason => cases h; exact ⟨reason, rfl, rfl⟩
  | ok a => cases h

/-- The first complaint counts. -/
theorem eq_error_of_discard_bind (h : (do discard x; next) = .error text) :
    x = .error text ∨ (∃ a, x = .ok a) ∧ next = .error text := by
  cases x with
  | error text' => cases h; exact .inl rfl
  | ok a => exact .inr ⟨⟨a, rfl⟩, h⟩

end Except

/-- What is wrong with the files is complained about in the same way with memory. -/
theorem respond_run_of_prepare (hsetup : tape.setup = .ok setup)
    (h : prepare files (.run script others input tape) = .error text) :
    respond host fuel files console (.run script others input tape) =
      some (.failure [] text) := by
  rcases eq_error_of_discard_bind h with hinput | ⟨⟨bytes, hinput⟩, hscripts⟩
  · simp only [respond, respondRun, hsetup, hinput]
  · simp only [respond, respondRun, hsetup, hinput]
    cases others with
    | nil =>
        obtain ⟨reason, hfile, rfl⟩ := eq_error_of_mapError (eq_error_of_discard hscripts)
        simp only [runSingle, hfile]
    | cons other others => simp only [runSeveral, eq_error_of_discard hscripts]

theorem respond_outline_of_prepare (hsetup : tape.setup = .ok setup)
    (h : prepare files (.outline path tape) = .error text) :
    respond host fuel files console (.outline path tape) = some (.failure [] text) := by
  obtain ⟨reason, hfile, rfl⟩ := eq_error_of_mapError (eq_error_of_discard h)
  simp only [respond, respondOutline, hsetup, hfile]

theorem exists_setup_of_not_fits (h : ¬tape.length ≤ addressable) :
    ∃ setup, tape.setup = .ok setup :=
  ⟨_, dif_pos (Nat.zero_lt_of_lt (Nat.lt_of_not_le h))⟩

/-- What is wrong with the files is complained about before memory is asked for, and in the same
way: the limit shows only where nothing is wrong. -/
theorem execute_of_not_exhausts (h : ¬Exhausts files invocation) (host : Host) (fuel : Nat)
    (console : Console) :
    execute host fuel files console invocation = respond host fuel files console invocation := by
  by_cases hfits : invocation.fits
  · exact if_pos hfits
  · rw [execute, if_neg hfits]
    cases hprepare : prepare files invocation with
    | ok => exact absurd ⟨Bool.eq_false_iff.mpr hfits, hprepare⟩ h
    | error text =>
        cases invocation with
        | run script others input tape =>
            obtain ⟨setup, hsetup⟩ := exists_setup_of_not_fits (mt decide_eq_true hfits)
            exact (respond_run_of_prepare hsetup hprepare).symm
        | outline script tape =>
            obtain ⟨setup, hsetup⟩ := exists_setup_of_not_fits (mt decide_eq_true hfits)
            exact (respond_outline_of_prepare hsetup hprepare).symm
        | bench seed count depth width => cases hprepare

/-! ## Ends of commands -/

/-- There is a listing, and it is not empty. -/
def HasListing (host : Host) (files : Files) (invocation : Invocation) : Prop :=
  ∃ path tape, invocation = .outline path tape ∧
    ∃ exit, Halts (execute host · files {} invocation) exit ∧ exit.status = 0 ∧ exit.stdout ≠ []

/-- How a command ends with a working standard output, and how with one that refuses every
byte. -/
structure Exits (host : Host) (files : Files) (invocation : Invocation) : Prop where
  ordinary_iff : ∀ ⦃exit⦄, Halts (execute host · files {} invocation) exit →
    (exit.Ordinary ↔ ¬Exhausts files invocation)
  muted : ∀ text, Muted (execute host · files { refusal := some text } invocation)
    (execute host · files {} invocation)
  refused_ordinary_iff : ∀ ⦃text exit⦄,
    Halts (execute host · files { refusal := some text } invocation) exit →
      (exit.Ordinary ↔ ¬Exhausts files invocation ∧ ¬HasListing host files invocation)
  refused_listing : HasListing host files invocation → ∀ ⦃text exit⦄,
    Halts (execute host · files { refusal := some text } invocation) exit →
      exit = .refusedListing host text
  exhausted : Exhausts files invocation → ∀ fuel console,
    execute host fuel files console invocation = some (.exhausted host)

/-- The exits of a command that asks for too much memory. -/
theorem Exits.of_exhausts (h : Exhausts files invocation) (host : Host) :
    Exits host files invocation := by
  have hexecute := execute_of_exhausts h host
  have hlisting : ¬HasListing host files invocation := by
    rintro ⟨path, tape, -, exit, hexit, hsuccess, -⟩
    simp only [hexecute] at hexit
    cases halts_some.mp hexit ▸ hsuccess
  have hordinary : (Exit.exhausted host).Ordinary ↔ ¬Exhausts files invocation :=
    iff_of_false (Exit.not_ordinary_abort _) (not_not_intro h)
  refine ⟨?_, ?_, ?_, fun h => absurd h hlisting, fun _ => hexecute⟩ <;> simp only [hexecute]
  · intro exit hexit
    exact halts_some.mp hexit ▸ hordinary
  · exact fun _ => .of_const nofun
  · intro text exit hexit
    rw [and_iff_left hlisting]
    exact halts_some.mp hexit ▸ hordinary

/-- The exits of a command with memory for all that it asks for. -/
theorem Exits.of_not_exhausts (hmemory : ¬Exhausts files invocation)
    (hordinary : ∀ ⦃exit⦄, Halts (respond host · files {} invocation) exit → exit.Ordinary)
    (hmuted : ∀ text, Muted (respond host · files { refusal := some text } invocation)
      (respond host · files {} invocation))
    (hlisting : HasListing host files invocation → ∀ ⦃text exit⦄,
      Halts (respond host · files { refusal := some text } invocation) exit →
        exit = .refusedListing host text)
    (hnone : ¬HasListing host files invocation → ∀ ⦃text exit⦄,
      Halts (respond host · files { refusal := some text } invocation) exit → exit.Ordinary) :
    Exits host files invocation := by
  refine ⟨?_, ?_, ?_, ?_, fun h => absurd h hmemory⟩ <;>
    simp only [execute_of_not_exhausts hmemory]
  · exact fun exit h => iff_of_true (hordinary h) hmemory
  · exact hmuted
  · intro text exit h
    rw [and_iff_right hmemory]
    constructor
    · exact fun hexit hlisted => hexit.ne_refusedListing host text (hlisting hlisted h)
    · exact fun hunlisted => hnone hunlisted h
  · exact hlisting

/-- The exits of a command that lists nothing. -/
theorem Exits.of_ordinary (hmemory : ¬Exhausts files invocation)
    (hnone : ¬HasListing host files invocation)
    (hordinary : ∀ ⦃console exit⦄, Halts (respond host · files console invocation) exit →
      exit.Ordinary)
    (hmuted : ∀ text, Muted (respond host · files { refusal := some text } invocation)
      (respond host · files {} invocation)) : Exits host files invocation :=
  .of_not_exhausts hmemory (fun _ h => hordinary h) hmuted (fun h => absurd h hnone)
    fun _ _ _ h => hordinary h

theorem exits_run (hmemory : ¬Exhausts files (.run script others input tape)) (host : Host) :
    Exits host files (.run script others input tape) := by
  refine .of_ordinary hmemory (fun ⟨_, _, hnot, _⟩ => nomatch hnot) ?_ ?_
  · rintro console exit ⟨fuel, h⟩
    exact ordinary_respond_run h
  · exact fun text => muted_respond_run host files text script others input tape

theorem hasListing_outline (hmemory : ¬Exhausts files (.outline path tape)) :
    HasListing host files (.outline path tape) ↔
      ∃ exit, Halts (respond host · files {} (.outline path tape)) exit ∧
        exit.status = 0 ∧ exit.stdout ≠ [] := by
  simp only [HasListing, execute_of_not_exhausts hmemory]
  constructor
  · rintro ⟨_, _, -, h⟩
    exact h
  · exact fun h => ⟨path, tape, rfl, h⟩

theorem exits_outline (hmemory : ¬Exhausts files (.outline path tape)) (host : Host) :
    Exits host files (.outline path tape) := by
  obtain ⟨run, hsteady, hrun⟩ := exists_respond_outline host files path tape
  have hiff {text : String} {exit : Exit}
      (h : Halts (respond host · files { refusal := some text } (.outline path tape)) exit) :
      exit = .refusedListing host text ↔ HasListing host files (.outline path tape) := by
    rw [hasListing_outline hmemory]
    simp only [hrun] at h ⊢
    exact halts_map_iff_of_steady (P := (· = .refusedListing host text))
      (Q := fun exit => exit.status = 0 ∧ exit.stdout ≠ []) hsteady
      (Exit.ofListing_eq_refusedListing_iff host · text) h
  refine .of_not_exhausts hmemory ?_ ?_ (fun hlisted _ _ h => (hiff h).mpr hlisted) ?_
  · simp only [hrun]
    intro exit h
    obtain ⟨listing, -, rfl⟩ := halts_map.mp h
    exact Exit.ordinary_ofListing host listing
  · simp only [hrun]
    exact fun text => .of_map hsteady (Exit.status_ofListing_iff host · text)
  · intro hunlisted text exit h
    have hexit := mt (hiff h).mp hunlisted
    simp only [hrun] at h
    obtain ⟨listing, -, rfl⟩ := halts_map.mp h
    exact (Exit.ofListing_ordinary_or_eq_refusedListing host listing text).resolve_right hexit

theorem exits_bench {seed : UInt64} {count depth width : Nat}
    (hmemory : ¬Exhausts files (.bench seed count depth width)) (host : Host) :
    Exits host files (.bench seed count depth width) := by
  obtain ⟨run, hsteady, hrun⟩ := exists_respond_bench host seed count depth width
  refine .of_ordinary hmemory (fun ⟨_, _, hnot, _⟩ => nomatch hnot) ?_ ?_ <;> simp only [hrun]
  · intro console exit h
    obtain ⟨⟨scripts, results⟩, -, rfl⟩ := halts_map.mp h
    exact (ordinary_ofBench scripts results).1
  · intro text
    refine .of_map hsteady fun (scripts, results) => ?_
    exact (and_iff_left (ordinary_ofBench scripts results).2).symm

/-- A command ends with success or with a complaint, unless it asks for more memory than can be
addressed: then it gives up. If standard output refuses every byte then it ends whenever it would
end otherwise, and succeeds if and only if it would do so with nothing to show. It complains if it
fails, except that it gives up also over a listing that is refused. -/
theorem exits_of_invocation (host : Host) (files : Files) (invocation : Invocation) :
    Exits host files invocation := by
  by_cases hmemory : Exhausts files invocation
  · exact .of_exhausts hmemory host
  · cases invocation with
    | run script others input tape => exact exits_run hmemory host
    | outline path tape => exact exits_outline hmemory host
    | bench seed count depth width => exact exits_bench hmemory host

/-- A listing of one line, shown by a working device and refused by a full one. -/
theorem refused_listing_aborts :
    let host : Host := { thread := 4, traced := true, exhaustion := "" }
    let files : Files := fun _ => .ok (.ofBytes ['+'.toUInt8])
    let outline : Invocation := .outline "a.bf" { length := 1 }
    Invocation.ofWords? ["outline", "a.bf", "--tape-len", "1"] = some outline ∧
      Halts (execute host · files {} outline) (.success "   0  +\n".toUTF8.toList) ∧
      ∃ exit, Halts (execute host · files
          { refusal := some "No space left on device (os error 28)" } outline) exit ∧
        exit.status = 101 ∧ ¬exit.Ordinary := by
  intro host files outline
  refine ⟨by decide +kernel, ⟨4, by decide +kernel⟩, ?_⟩
  refine ⟨.refusedListing host "No space left on device (os error 28)", ⟨4, ?_⟩, rfl, ?_⟩
  · decide +kernel
  · exact Exit.not_ordinary_abort _

end CommandLine

end TapeScript
