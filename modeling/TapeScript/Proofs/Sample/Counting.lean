import TapeScript.Proofs.Sample.Rounds
import TapeScript.Proofs.Sample.Running

/-! # What plans execute

A body that works on a cell finds the cells of its loops cleared, and leaves them cleared again.
So a counted loop takes exactly its rounds, and no other loop is entered. -/

namespace TapeScript.Sample

open Script

/-! ## The loops of a plan -/

/-- How many of the bytes are commands. -/
def size (bytes : List UInt8) : Nat := (Dialect.builtin.commandsOf bytes).length

/-- The counted loops of a body that begins at the position `n` and works on the cell `q`, and its
dead loops, which are to take no rounds. -/
def Plan.loops : Plan → (n q : Nat) → List Loop
  | done, _, _ => []
  | byte b rest, n, q => rest.loops (n + size [b]) q
  | dead filler rest, n, q =>
      let closing := n + 5 + size filler.render
      ⟨n + 4, closing, q + 1, 0⟩ :: rest.loops (closing + 2) q
  | counted count inner rest, n, q =>
      let opening := n + 4 + count
      let closing := opening + 4 + size inner.render
      ⟨opening, closing, q + 1, count⟩ ::
        (inner.loops (opening + 2) (q + 2) ++ rest.loops (closing + 2) q)

variable {n m k height q r : Nat} {d d' d'' : Device} {T U : Script → Script}
  {loops loops' : List Loop} {log log' : List Act} {xs ys : List UInt8}

theorem size_append (xs ys : List UInt8) : size (xs ++ ys) = size xs + size ys := by
  rw [size, Dialect.commandsOf_append, List.length_append]
  rfl

theorem size_cons {b : UInt8} {c : Command} (hc : Dialect.builtin.find? b = some c)
    (bytes : List UInt8) : size (b :: bytes) = size bytes + 1 := by
  rw [size, Dialect.commandsOf, List.filterMap_cons, hc]
  rfl

theorem size_replicate_plus (count : Nat) : size (List.replicate count '+'.toUInt8) = count := by
  have hplus : Dialect.builtin.find? '+'.toUInt8 = some _ := rfl
  induction count with
  | zero => rfl
  | succ count ih => rw [List.replicate_succ, size_cons hplus, ih]

theorem Renders.length (h : Renders xs T) : (T .done).length = size xs := by
  rw [Script.length, h.toCommands, Script.toCommands, List.append_nil]
  rfl

/-! ## Executing a part of a tree -/

/-- Whatever comes behind, the tree leads from one device to the other and executes this. -/
def Walks (T : Script → Script) (n m : Nat) (d : Device) (log : List Act) (d' : Device) : Prop :=
  ∀ rest log' d'', Traces m rest d' log' d'' → Traces n (T rest) d (log ++ log') d''

/-- The tree leads from one device to the other, visits these loops and enters no others. -/
def Travels (T : Script → Script) (n m : Nat) (loops : List Loop) (height : Nat)
    (d d' : Device) : Prop :=
  ∃ log, Walks T n m d log d' ∧ Sound n m loops height log

theorem Travels.refl (n height : Nat) (d : Device) : Travels id n n [] height d d :=
  ⟨[], fun _ _ _ h => h, .nil n height⟩

theorem Travels.trans (h : Travels T n m loops height d d')
    (h' : Travels U m k loops' height d' d'') :
    Travels (fun rest => T (U rest)) n k (loops ++ loops') height d d'' := by
  obtain ⟨log, hwalks, hsound⟩ := h
  obtain ⟨log', hwalks', hsound'⟩ := h'
  refine ⟨log ++ log', fun _ _ _ htraces => ?_, hsound.append hsound'⟩
  rw [List.append_assoc]
  exact hwalks _ _ _ (hwalks' _ _ _ htraces)

theorem travels_command (n height : Nat) {b : UInt8} {c : Command} {action : Action}
    (hc : Dialect.builtin.find? b = some c) (hk : c.kind = .simple action)
    (hrun : action.run d = .ok d') : Travels (line [b]) n (n + 1) [] height d d' := by
  refine ⟨[⟨n, c, d.tape⟩], fun _ _ _ htraces => ?_, ?_⟩
  · rw [line_of_find? hc]
    exact .act hk hrun htraces
  · have hne : c.kind ≠ .loopClose := by simp [hk]
    exact Sound.single (a := ⟨n, c, d.tape⟩) height (Act.enters_of_simple hk)
      (Act.ends_of_ne hne) (Nat.lt_succ_self n)

theorem travels_right (n height : Nat) (h : Stands r d) (hin : r + 1 < d.tape.cells.size) :
    ∃ d', Travels (line ['>'.toUInt8]) n (n + 1) [] height d d' ∧ Stands (r + 1) d' ∧
      d'.tape.cells = d.tape.cells := by
  obtain ⟨hd, rfl⟩ := h
  have hrun := Prim.run_shift 1 d
  rw [Tape.shift_right, dif_pos hin] at hrun
  exact ⟨_, travels_command n height rfl rfl hrun, ⟨hd.withTape _, rfl⟩, rfl⟩

theorem travels_left (n height : Nat) (h : Stands (r + 1) d) :
    ∃ d', Travels (line ['<'.toUInt8]) n (n + 1) [] height d d' ∧ Stands r d' ∧
      d'.tape.cells = d.tape.cells := by
  obtain ⟨hd, hcursor⟩ := h
  have hne : d.tape.cursor ≠ 0 := hcursor ▸ Nat.succ_ne_zero r
  have hrun := Prim.run_shift (-1) d
  rw [Tape.shift_left, if_neg hne] at hrun
  exact ⟨_, travels_command n height rfl rfl hrun, ⟨hd.withTape _, congrArg (· - 1) hcursor⟩, rfl⟩

theorem travels_byte (n height : Nat) {b : UInt8} (hb : b ∈ cellBytes ∨ b ∈ idleBytes)
    (h : Stands r d) :
    ∃ d', Travels (line [b]) n (n + size [b]) [] height d d' ∧ Stands r d' ∧ Touches d d' := by
  rcases hb with hb | hb
  · obtain ⟨hd, rfl⟩ := h
    obtain ⟨c, action, d', hc, hk, hrun, hstands, htouches⟩ := exists_run_cellByte hb hd
    rw [size_cons hc]
    exact ⟨d', travels_command n height hc hk hrun, hstands, htouches⟩
  · have hsize : size [b] = 0 := by
      rw [size, Dialect.commandsOf, List.filterMap_cons, find?_of_idle hb]
      rfl
    have hline : line [b] = id := funext fun rest => line_of_idle hb
    rw [hsize, hline]
    exact ⟨d, .refl n height d, h, .refl d⟩

theorem travels_minus (n height : Nat) (h : Stands r d) :
    ∃ d', Travels (line ['-'.toUInt8]) n (n + 1) [] height d d' ∧ Stands r d' ∧ Touches d d' ∧
      d'.tape.current = d.tape.current - 1 := by
  obtain ⟨hd, rfl⟩ := h
  refine ⟨_, travels_command n height rfl rfl (Prim.run_add 255 d), ⟨hd.withTape _, rfl⟩,
    touches_setCurrent d _, ?_⟩
  rw [Tape.current_setCurrent, UInt8.sub_eq_add_neg]
  rfl

theorem travels_plus (n height count : Nat) (h : Stands r d) :
    ∃ d', Travels (line (List.replicate count '+'.toUInt8)) n (n + count) [] height d d' ∧
      Stands r d' ∧ Touches d d' ∧ d'.tape.current = d.tape.current + UInt8.ofNat count := by
  induction count generalizing n d with
  | zero => exact ⟨d, .refl n height d, h, .refl d, (UInt8.add_zero _).symm⟩
  | succ count ih =>
      obtain ⟨hd, rfl⟩ := h
      have hfirst := travels_command (b := '+'.toUInt8) n height rfl rfl (Prim.run_add 1 d)
      have hcurrent := Tape.current_setCurrent (d.tape.current + 1) d.tape
      obtain ⟨d', htravels, hstands, htouches, hcurrent'⟩ :=
        ih (n := n + 1) (d := { d with tape := d.tape.setCurrent (d.tape.current + 1) })
          ⟨hd.withTape _, rfl⟩
      refine ⟨d', ?_, hstands, (touches_setCurrent d _).trans htouches rfl, ?_⟩
      · have hline : line (List.replicate (count + 1) '+'.toUInt8) = fun rest =>
            line ['+'.toUInt8] (line (List.replicate count '+'.toUInt8) rest) :=
          funext fun rest => line_cons _ _ rest
        rw [hline, Nat.add_comm count, ← Nat.add_assoc]
        exact hfirst.trans htravels
      · rw [hcurrent', hcurrent, UInt8.add_assoc, Nat.add_comm count, UInt8.ofNat_add]
        rfl

/-! ## Loops that are not entered -/

/-- The opening command at this position is executed. -/
abbrev openingAt (n : Nat) (tape : Tape) : Act := ⟨n, ⟨'['.toUInt8, .loopOpen⟩, tape⟩

theorem walks_skip {body : Script} (hz : d.tape.current = 0) (hm : m = n + 1 + body.length) :
    Walks (bracketed body) n (m + 1) d [openingAt n d.tape] d := by
  obtain rfl : m = n + body.length + 1 := by omega
  exact fun _ _ _ htraces => .leave hz htraces

theorem sound_skip (height : Nat) (hz : d.tape.current = 0) (hlt : n < m) :
    Sound n (m + 1) [] height [openingAt n d.tape] :=
  Sound.single (a := openingAt n d.tape) height (Act.enters_of_zero hz)
    (Act.ends_of_ne Command.Kind.noConfusion) (Nat.lt_succ_of_lt hlt)

/-- A loop over a zero cell is visited without a round. -/
theorem travels_dead (height : Nat) {body : Script} (h : Stands r d) (hz : d.tape.current = 0)
    (hm : m = n + 1 + body.length) :
    Travels (bracketed body) n (m + 1) [⟨n, m, r, 0⟩] height d d := by
  have hlt : n < m := by omega
  have hopens : (Loop.mk n m r 0).Opens (openingAt n d.tape) := ⟨rfl, rfl, h.cursor⟩
  have hvisit : (Loop.mk n m r 0).Visit [openingAt n d.tape] := .left hopens hz
  exact ⟨_, walks_skip hz hm, (sound_skip height hz hlt).cons
    ⟨Nat.le_refl n, hlt, Nat.lt_succ_self m⟩ hvisit.visited⟩

/-- The cells on which the loops of a body on the cell `q` count are zero. -/
def Clear (q : Nat) (d : Device) : Prop := ∀ j, ∀ byte ∈ d.tape.cells[q + 2 * j + 1]?, byte = 0

theorem Clear.of_cells (h : Clear q d) (hcells : d'.tape.cells = d.tape.cells) : Clear q d' :=
  fun j => hcells ▸ h j

theorem Clear.of_touches (h : Clear q d) (htouches : Touches d d') (hle : d.tape.cursor ≤ q) :
    Clear q d' := by
  intro j byte hbyte
  rw [htouches.elsewhere _ (by omega)] at hbyte
  exact h j byte hbyte

theorem Clear.inner (h : Clear q d) : Clear (q + 2) d := by
  intro j
  have hcell : q + 2 + 2 * j + 1 = q + 2 * (j + 1) + 1 := by omega
  exact hcell ▸ h (j + 1)

theorem Clear.outer (h : Clear (q + 2) d) (hz : ∀ byte ∈ d.tape.cells[q + 1]?, byte = 0) :
    Clear q d := by
  intro j
  cases j with
  | zero => exact hz
  | succ j =>
      have hcell : q + 2 * (j + 1) + 1 = q + 2 + 2 * j + 1 := by omega
      exact hcell ▸ h j

/-- The next cell is clear already. -/
theorem travels_clearing (n height : Nat) (h : Stands q d) (hclear : Clear q d)
    (hin : q + 1 < d.tape.cells.size) :
    ∃ d', Travels clearing n (n + 4) [] height d d' ∧ Stands (q + 1) d' ∧
      d'.tape.cells = d.tape.cells ∧ d'.tape.current = 0 := by
  obtain ⟨d', htravels, hstands, hcells⟩ := travels_right n height h hin
  have hz : d'.tape.current = 0 := by
    have hcell := d'.tape.getElem?_cursor
    rw [hstands.cursor, hcells] at hcell
    exact hclear 0 _ hcell
  have hskip : Travels (bracketed (line ['-'.toUInt8] .done)) (n + 1) (n + 4) [] height d' d' :=
    ⟨_, walks_skip (m := n + 3) hz rfl, sound_skip height hz (by omega)⟩
  exact ⟨d', htravels.trans hskip, hstands, hcells, hz⟩

/-! ## Loops that count down -/

section Rounds

variable {body : Script → Script} {inv : Device → Prop}

/-- A round of a loop on the cell `r` keeps the invariant and counts the cell down by one. -/
def CountsDown (body : Script → Script) (inv : Device → Prop) (r n m : Nat) (loops : List Loop)
    (height : Nat) : Prop :=
  ∀ d, Stands r d → inv d → d.tape.current ≠ 0 →
    ∃ d', Travels body (n + 1) m loops height d d' ∧ Stands r d' ∧ inv d' ∧
      d'.tape.current = d.tape.current - 1

theorem exists_rounds (count : Nat) (hm : m = n + 1 + (body .done).length)
    (hbody : CountsDown body inv r n m loops height) (h : Stands r d) (hinv : inv d) :
    ∃ log d', Walks (bracketed (body .done)) n (m + 1) d log d' ∧
      (Loop.mk n m r count).Rounds (Sound (n + 1) m loops height) d.tape.current.toNat log ∧
      Stands r d' ∧ inv d' ∧ d'.tape.current = 0 := by
  have hopens {d : Device} (h : Stands r d) :
      (Loop.mk n m r count).Opens (openingAt n d.tape) := ⟨rfl, rfl, h.cursor⟩
  induction hk : d.tape.current.toNat generalizing d with
  | zero =>
      have hz : d.tape.current = 0 := UInt8.toNat_inj.mp hk
      exact ⟨_, d, walks_skip hz hm, .left (hopens h) hz, h, hinv, hz⟩
  | succ k ih =>
      have hnz : d.tape.current ≠ 0 := by
        rintro hz
        rw [hz] at hk
        cases hk
      obtain ⟨d₁, ⟨inside, hwalks, hsound⟩, hstands, hinv₁, hcurrent⟩ := hbody d h hinv hnz
      have hless := toNat_sub_one hnz
      obtain ⟨log, d₂, hagain, hrounds, hends⟩ := ih hstands hinv₁ (by rw [hcurrent]; omega)
      have hcloses : (Loop.mk n m r count).Closes ⟨m, ⟨']'.toUInt8, .loopClose⟩, d₁.tape⟩ :=
        ⟨rfl, rfl⟩
      refine ⟨_, d₂, fun rest log' d₃ htraces => ?_, .round (hopens h) hnz hsound hcloses hrounds,
        hends⟩
      have hinside := hwalks .done [] d₁ (.done m d₁)
      obtain rfl : m = n + (body .done).length + 1 := by omega
      have hround : Traces n (bracketed (body .done) rest) d _ d₃ :=
        .enter hnz hinside (hagain rest log' d₃ htraces)
      simpa only [List.append_nil, List.append_assoc, List.cons_append] using hround

/-- A loop that counts down takes as many rounds as its cell says. -/
theorem travels_countdown (hm : m = n + 1 + (body .done).length)
    (hbody : CountsDown body inv r n m loops height) (h : Stands r d) (hinv : inv d)
    (hnz : d.tape.current ≠ 0) :
    ∃ d', Travels (bracketed (body .done)) n (m + 1) (⟨n, m, r, d.tape.current.toNat⟩ :: loops)
      (height + 1) d d' ∧ Stands r d' ∧ inv d' ∧ d'.tape.current = 0 := by
  obtain ⟨log, d', hwalks, hrounds, hends⟩ :=
    exists_rounds d.tape.current.toNat hm hbody h hinv
  have hlt : n < m := by omega
  have hcount : d.tape.current.toNat ≠ 0 := fun hz => hnz (UInt8.toNat_inj.mp hz)
  exact ⟨d', ⟨log, hwalks, hrounds.sound hlt hcount⟩, hends⟩

end Rounds

/-! ## Items of a body -/

/-- A body on the cell `q` ends there, keeps the cells before and leaves its loops' cells clear. -/
structure Stays (q : Nat) (d d' : Device) : Prop where
  stands : Stands q d'
  keeps : Keeps q d d'
  clear : Clear q d'

theorem Stays.of_keeps (h : Stays q d' d'') (hkeeps : Keeps q d d') : Stays q d d'' :=
  ⟨h.stands, hkeeps.trans h.keeps (Nat.le_refl q), h.clear⟩

theorem exists_travels_byte (n height : Nat) {b : UInt8} (hb : b ∈ cellBytes ∨ b ∈ idleBytes)
    (h : Stands q d) (hclear : Clear q d) :
    ∃ d', Travels (line [b]) n (n + size [b]) [] height d d' ∧ Stays q d d' := by
  obtain ⟨d', htravels, hstands, htouches⟩ := travels_byte n height hb h
  exact ⟨d', htravels, hstands, h.cursor ▸ htouches.keeps,
    hclear.of_touches htouches (Nat.le_of_eq h.cursor)⟩

theorem exists_travels_dead (n height : Nat) (body : Script) (h : Stands q d)
    (hclear : Clear q d) (hin : q + 1 < d.tape.cells.size) :
    ∃ d', Travels (fun rest => clearing (bracketed body (line ['<'.toUInt8] rest)))
      n (n + 5 + body.length + 2) [⟨n + 4, n + 5 + body.length, q + 1, 0⟩] height d d' ∧
      Stays q d d' := by
  obtain ⟨d₁, htravels₁, hstands₁, hcells₁, hz⟩ := travels_clearing n height h hclear hin
  have htravels₂ := travels_dead height hstands₁ hz (rfl : n + 5 + body.length = _)
  obtain ⟨d₂, htravels₃, hstands₂, hcells₂⟩ :=
    travels_left (n + 5 + body.length + 1) height hstands₁
  have hcells := hcells₂.trans hcells₁
  exact ⟨d₂, htravels₁.trans (htravels₂.trans htravels₃), hstands₂, .of_cells hcells q,
    hclear.of_cells hcells⟩

section Counted

variable {inner : Script → Script} {depth width : Nat}
  (hinner : ∀ d, Stands (r + 1) d → Clear (r + 1) d → r + 1 + 2 * depth + 1 < d.tape.cells.size →
    ∃ d', Travels inner (n + 2) (n + 2 + width) loops depth d d' ∧ Stays (r + 1) d d')
include hinner

/-- One round of a counted loop on the cell `r`, whose inner body works on the next cell. -/
theorem countsDown_inner {d₀ : Device} (hsize : r + 1 + 2 * depth + 1 < d₀.tape.cells.size) :
    CountsDown
      (fun rest => line ['>'.toUInt8] (inner (line ['<'.toUInt8] (line ['-'.toUInt8] rest))))
      (fun d => Keeps r d₀ d ∧ Clear (r + 1) d) r n (n + 4 + width) loops depth := by
  rintro d hstands ⟨hkeeps, hclear⟩ -
  obtain ⟨d₁, htravels₁, hstands₁, hcells₁⟩ :=
    travels_right (n + 1) depth hstands (by rw [hkeeps.size]; omega)
  have hsize₁ : r + 1 + 2 * depth + 1 < d₁.tape.cells.size := by rwa [hcells₁, hkeeps.size]
  obtain ⟨d₂, htravels₂, hstays⟩ := hinner d₁ hstands₁ (hclear.of_cells hcells₁) hsize₁
  obtain ⟨d₃, htravels₃, hstands₃, hcells₃⟩ := travels_left (n + 2 + width) depth hstays.stands
  obtain ⟨d₄, htravels₄, hstands₄, htouches, hcurrent⟩ :=
    travels_minus (n + 2 + width + 1) depth hstands₃
  have hthere : Keeps (r + 1) d d₃ :=
    (Keeps.trans (.of_cells hcells₁ _) hstays.keeps (Nat.le_refl _)).trans (.of_cells hcells₃ _)
      (Nat.le_refl _)
  have hsame : d₃.tape.current = d.tape.current := by
    refine Tape.current_eq_of_cells (hstands₃.cursor.trans hstands.cursor.symm) ?_
    rw [hstands.cursor]
    exact hthere.below r (Nat.lt_succ_self r)
  refine ⟨d₄, ?_, hstands₄, ⟨?_, ?_⟩, by rw [hcurrent, hsame]⟩
  · have hwhole := htravels₁.trans (htravels₂.trans (htravels₃.trans htravels₄))
    have hend : n + 2 + width + 1 + 1 = n + 4 + width := by omega
    rw [hend] at hwhole
    simpa using hwhole
  · have hback : Keeps r d₃ d₄ := hstands₃.cursor ▸ htouches.keeps
    exact (hkeeps.trans (hthere.mono (Nat.le_succ r)) (Nat.le_refl r)).trans hback (Nat.le_refl r)
  · exact (hstays.clear.of_cells hcells₃).of_touches htouches (hstands₃.cursor ▸ Nat.le_succ r)

end Counted

theorem exists_travels_counted (n : Nat) {count depth width : Nat} {inner : Script → Script}
    (hcount : (UInt8.ofNat count).toNat = count) (hpos : count ≠ 0) (h : Stands q d)
    (hclear : Clear q d) (hsize : q + 2 * (depth + 1) + 1 < d.tape.cells.size)
    (hlength : (line ['>'.toUInt8]
      (inner (line ['<'.toUInt8] (line ['-'.toUInt8] .done)))).length = width + 3)
    (hinner : ∀ d, Stands (q + 2) d → Clear (q + 2) d →
      q + 2 + 2 * depth + 1 < d.tape.cells.size →
      ∃ d', Travels inner (n + 4 + count + 2) (n + 4 + count + 2 + width) loops depth d d' ∧
        Stays (q + 2) d d') :
    ∃ d', Travels
      (fun rest => clearing (line (List.replicate count '+'.toUInt8) (bracketed
        (line ['>'.toUInt8] (inner (line ['<'.toUInt8] (line ['-'.toUInt8] .done))))
        (line ['<'.toUInt8] rest))))
      n (n + 4 + count + 4 + width + 2)
      (⟨n + 4 + count, n + 4 + count + 4 + width, q + 1, count⟩ :: loops) (depth + 1) d d' ∧
      Stays q d d' := by
  obtain ⟨d₁, htravels₁, hstands₁, hcells₁, hz⟩ :=
    travels_clearing n (depth + 1) h hclear (by omega)
  obtain ⟨d₂, htravels₂, hstands₂, htouches, hcurrent⟩ :=
    travels_plus (n + 4) (depth + 1) count hstands₁
  rw [hz, UInt8.zero_add] at hcurrent
  have hcounter : d₂.tape.current.toNat = count := by rw [hcurrent, hcount]
  have hnz : d₂.tape.current ≠ 0 := by
    intro hzero
    rw [hzero] at hcounter
    exact hpos hcounter.symm
  have hkeeps₂ : Keeps (q + 1) d d₂ :=
    Keeps.trans (.of_cells hcells₁ _) (hstands₁.cursor ▸ htouches.keeps) (Nat.le_refl _)
  have hclear₂ : Clear (q + 2) d₂ :=
    (hclear.inner.of_cells hcells₁).of_touches htouches (hstands₁.cursor ▸ Nat.le_succ _)
  have hroom : q + 2 + 2 * depth + 1 < d.tape.cells.size := by omega
  have hround := countsDown_inner hinner hroom
  obtain ⟨d₃, htravels₃, hstands₃, ⟨hkeeps₃, hclear₃⟩, hz₃⟩ :=
    travels_countdown (by omega) hround hstands₂ ⟨hkeeps₂, hclear₂⟩ hnz
  rw [hcounter] at htravels₃
  obtain ⟨d₄, htravels₄, hstands₄, hcells₄⟩ :=
    travels_left (n + 4 + count + 4 + width + 1) (depth + 1) hstands₃
  have hclear₄ : Clear q d₄ := by
    refine Clear.outer (hclear₃.of_cells hcells₄) fun byte hbyte => ?_
    rw [hcells₄, ← hstands₃.cursor, Tape.getElem?_cursor, hz₃] at hbyte
    exact (Option.some.inj hbyte).symm
  have hkeeps₄ : Keeps q d d₄ :=
    (hkeeps₃.mono (Nat.le_succ q)).trans (.of_cells hcells₄ q) (Nat.le_refl q)
  have hwhole := htravels₁.trans (htravels₂.trans (htravels₃.trans htravels₄))
  exact ⟨d₄, by simpa using hwhole, hstands₄, hkeeps₄, hclear₄⟩

/-! ## Plans -/

theorem Plan.length_round {shape : Shape} {depth items : Nat} {plan : Plan}
    (h : plan.Fits shape depth items) :
    (line ['>'.toUInt8] (plan.tree (line ['<'.toUInt8] (line ['-'.toUInt8] .done)))).length =
      size plan.render + 3 := by
  have hright := renders_byte (b := '>'.toUInt8) rfl
  have hleft := renders_byte (b := '<'.toUInt8) rfl
  have hminus := renders_byte (b := '-'.toUInt8) rfl
  have hlength := (hright.append ((renders h).append (hleft.append hminus))).length
  have hone : size ['>'.toUInt8] = 1 := rfl
  have htwo : size (['<'.toUInt8] ++ ['-'.toUInt8]) = 2 := rfl
  rw [hlength, size_append, size_append, hone, htwo]
  omega

theorem Plan.size_dead (filler : Filler) (rest : Plan) :
    size (dead filler rest).render = 5 + size filler.render + 2 + size rest.render := by
  have hclear : size clearNext = 4 := rfl
  have hopen : Dialect.builtin.find? '['.toUInt8 = some _ := rfl
  have hclose : Dialect.builtin.find? ']'.toUInt8 = some _ := rfl
  have hleft : Dialect.builtin.find? '<'.toUInt8 = some _ := rfl
  rw [render, size_append, hclear, size_cons hopen, size_append, size_cons hclose, size_cons hleft]
  omega

theorem Plan.size_counted (count : Nat) (inner rest : Plan) :
    size (counted count inner rest).render =
      4 + count + 4 + size inner.render + 2 + size rest.render := by
  have hclear : size clearNext = 4 := rfl
  have henter : size enter = 2 := rfl
  have hleave : size leave = 4 := rfl
  simp only [render, size_append, hclear, size_replicate_plus, henter, hleave]
  omega

theorem toNat_ofNat_count {shape : Shape} {count : Nat} (h : count ≤ max shape.repeats.toNat 1) :
    (UInt8.ofNat count).toNat = count := by
  have hlt : shape.repeats.toNat < 256 := shape.repeats.toNat_lt
  exact UInt8.toNat_ofNat_of_lt (show count < 256 by omega)

/-- A body on the cell `q` goes through its counted loops as they are drawn, and enters no other
loop. -/
theorem Plan.travels {shape : Shape} {depth items : Nat} {plan : Plan} (n : Nat)
    (hfits : plan.Fits shape depth items) (h : Stands q d) (hclear : Clear q d)
    (hsize : q + 2 * depth + 1 < d.tape.cells.size) :
    ∃ d', Travels plan.tree n (n + size plan.render) (plan.loops n q) depth d d' ∧
      Stays q d d' := by
  induction plan generalizing depth items n q d with
  | done => exact ⟨d, .refl n depth d, h, .refl q d, hclear⟩
  | byte b plan ih =>
      obtain ⟨-, hb, hplan⟩ := hfits
      obtain ⟨d₁, htravels₁, hstays₁⟩ := exists_travels_byte n depth hb h hclear
      obtain ⟨d₂, htravels₂, hstays₂⟩ :=
        ih _ hplan hstays₁.stands hstays₁.clear (hstays₁.keeps.size ▸ hsize)
      have hend : n + size [b] + size plan.render = n + size (byte b plan).render := by
        rw [Nat.add_assoc, ← size_append]
        rfl
      exact ⟨d₂, hend ▸ htravels₁.trans htravels₂, hstays₂.of_keeps hstays₁.keeps⟩
  | dead filler plan ih =>
      obtain ⟨-, ⟨_, -, hfiller⟩, hplan⟩ := hfits
      obtain ⟨d₁, htravels₁, hstays₁⟩ :=
        exists_travels_dead n depth (filler.tree .done) h hclear (by omega)
      rw [(Filler.renders hfiller).length] at htravels₁
      obtain ⟨d₂, htravels₂, hstays₂⟩ :=
        ih _ hplan hstays₁.stands hstays₁.clear (hstays₁.keeps.size ▸ hsize)
      have hend : n + 5 + size filler.render + 2 + size plan.render =
          n + size (dead filler plan).render := by
        rw [size_dead]
        omega
      exact ⟨d₂, hend ▸ htravels₁.trans htravels₂, hstays₂.of_keeps hstays₁.keeps⟩
  | counted count inner plan ihinner ihplan =>
      obtain ⟨-, hdepth, ⟨hpos, hmax⟩, ⟨-, hinner⟩, hplan⟩ := hfits
      obtain ⟨depth, rfl⟩ := Nat.exists_eq_succ_of_ne_zero (Nat.ne_of_gt hdepth)
      obtain ⟨d₁, htravels₁, hstays₁⟩ := exists_travels_counted n (toNat_ofNat_count hmax)
        (Nat.ne_of_gt hpos) h hclear hsize (length_round hinner) fun _ => ihinner _ hinner
      obtain ⟨d₂, htravels₂, hstays₂⟩ :=
        ihplan _ hplan hstays₁.stands hstays₁.clear (hstays₁.keeps.size ▸ hsize)
      have hend : n + 4 + count + 4 + size inner.render + 2 + size plan.render =
          n + size (counted count inner plan).render := by
        rw [size_counted]
        omega
      exact ⟨d₂, hend ▸ htravels₁.trans htravels₂, hstays₂.of_keeps hstays₁.keeps⟩

end TapeScript.Sample
