import TapeScript.Proofs.Sample.Tree
import TapeScript.Proofs.Script.Assurance

/-! # Running plans

A body that works on a cell ends with the cursor back on it, and leaves the cells before it as
they were. So a counted loop counts down undisturbed, whatever its inner body does. -/

namespace TapeScript

theorem Tape.getElem?_cursor (t : Tape) : t.cells[t.cursor]? = some t.current :=
  Array.getElem?_eq_getElem t.cursor_lt

theorem Tape.current_eq_of_cells {t u : Tape} (hcursor : u.cursor = t.cursor)
    (h : u.cells[t.cursor]? = t.cells[t.cursor]?) : u.current = t.current := by
  rw [t.getElem?_cursor, ← hcursor, u.getElem?_cursor] at h
  exact Option.some.inj h

namespace Sample

open Script

variable {limit : Option Nat} {bound q q' r r' : Nat} {Q : Device → Prop} {d d' d'' : Device}
  {rest : Script}

/-- The device stands on the cell `r`, on streams that never fail. -/
structure Stands (r : Nat) (d : Device) : Prop where
  infallible : d.Infallible
  cursor : d.tape.cursor = r

/-- The tape has the same length, and the same cells before `q`. -/
structure Keeps (q : Nat) (d d' : Device) : Prop where
  size : d'.tape.cells.size = d.tape.cells.size
  below : ∀ i < q, d'.tape.cells[i]? = d.tape.cells[i]?

theorem Keeps.refl (q : Nat) (d : Device) : Keeps q d d := ⟨rfl, fun _ _ => rfl⟩

theorem Keeps.of_cells (h : d'.tape.cells = d.tape.cells) (q : Nat) : Keeps q d d' :=
  ⟨congrArg Array.size h, fun _ _ => by rw [h]⟩

theorem Keeps.mono (h : Keeps q' d d') (hle : q ≤ q') : Keeps q d d' :=
  ⟨h.size, fun i hi => h.below i (Nat.lt_of_lt_of_le hi hle)⟩

/-- At most the cell under the cursor is another. -/
structure Touches (d d' : Device) : Prop where
  size : d'.tape.cells.size = d.tape.cells.size
  elsewhere : ∀ i, i ≠ d.tape.cursor → d'.tape.cells[i]? = d.tape.cells[i]?

theorem Touches.refl (d : Device) : Touches d d := ⟨rfl, fun _ _ => rfl⟩

theorem Touches.trans (h : Touches d d') (h' : Touches d' d'')
    (hcursor : d'.tape.cursor = d.tape.cursor) : Touches d d'' :=
  ⟨h'.size.trans h.size,
    fun i hi => (h'.elsewhere i (hcursor ▸ hi)).trans (h.elsewhere i hi)⟩

theorem Touches.keeps (h : Touches d d') : Keeps d.tape.cursor d d' :=
  ⟨h.size, fun i hi => h.elsewhere i (Nat.ne_of_lt hi)⟩

theorem Keeps.trans (h : Keeps q d d') (h' : Keeps q' d' d'') (hle : q ≤ q') : Keeps q d d'' :=
  ⟨h'.size.trans h.size,
    fun i hi => (h'.below i (Nat.lt_of_lt_of_le hi hle)).trans (h.below i hi)⟩

/-! ## One command -/

theorem assures_right (h : Stands r d) (hin : r + 1 < d.tape.cells.size) (hr : r ≤ bound)
    (hrest : ∀ d', Stands (r + 1) d' → d'.tape.cells = d.tape.cells →
      Assures limit bound rest d' Q) :
    Assures limit bound (line ['>'.toUInt8] rest) d Q := by
  obtain ⟨hd, rfl⟩ := h
  have hrun := Prim.run_shift 1 d
  rw [Tape.shift_right, dif_pos hin] at hrun
  exact .act rfl hr hrun (hrest _ ⟨hd.withTape _, rfl⟩ rfl)

theorem assures_left (h : Stands (r + 1) d) (hr : r + 1 ≤ bound)
    (hrest : ∀ d', Stands r d' → d'.tape.cells = d.tape.cells → Assures limit bound rest d' Q) :
    Assures limit bound (line ['<'.toUInt8] rest) d Q := by
  obtain ⟨hd, hcursor⟩ := h
  have hne : d.tape.cursor ≠ 0 := hcursor ▸ Nat.succ_ne_zero r
  have hrun := Prim.run_shift (-1) d
  rw [Tape.shift_left, if_neg hne] at hrun
  refine .act rfl (hcursor ▸ hr) hrun (hrest _ ⟨hd.withTape _, ?_⟩ rfl)
  exact congrArg (· - 1) hcursor

theorem touches_setCurrent (d : Device) (byte : UInt8) :
    Touches d { d with tape := d.tape.setCurrent byte } := by
  obtain ⟨⟨cells, cursor, hlt⟩, source, sink⟩ := d
  refine ⟨by simp [Tape.setCurrent], fun i hi => ?_⟩
  simp [Tape.setCurrent, Ne.symm hi]

theorem line_cons (b : UInt8) (bytes : List UInt8) (rest : Script) :
    line (b :: bytes) rest = line [b] (line bytes rest) := by
  simp only [line, ← List.foldr_append, ← Dialect.commandsOf_append, List.singleton_append]

theorem line_of_find? {b : UInt8} {c : Command} (hc : Dialect.builtin.find? b = some c) :
    line [b] rest = .act c rest := by
  rw [line, Dialect.commandsOf, List.filterMap_cons, hc]
  rfl

theorem find?_of_idle {b : UInt8} (hb : b ∈ idleBytes) : Dialect.builtin.find? b = none := by
  have hall : idleBytes.all (Dialect.builtin.find? · |>.isNone) = true := rfl
  exact Option.isNone_iff_eq_none.mp (List.all_eq_true.mp hall b hb)

theorem line_of_idle {b : UInt8} (hb : b ∈ idleBytes) : line [b] rest = rest := by
  rw [line, Dialect.commandsOf, List.filterMap_cons, find?_of_idle hb]
  rfl

/-- A command that acts on its cell alone. -/
theorem exists_run_cellByte {b : UInt8} (hb : b ∈ cellBytes) (hd : d.Infallible) :
    ∃ c action d', Dialect.builtin.find? b = some c ∧ c.kind = .simple action ∧
      action.run d = .ok d' ∧ Stands d.tape.cursor d' ∧ Touches d d' := by
  simp only [cellBytes, List.map_cons, List.map_nil, List.mem_cons, List.not_mem_nil,
    or_false] at hb
  rcases hb with rfl | rfl | rfl | rfl
  · exact ⟨_, _, _, rfl, rfl, Prim.run_add 1 d, ⟨hd.withTape _, rfl⟩, touches_setCurrent d _⟩
  · exact ⟨_, _, _, rfl, rfl, Prim.run_add 255 d, ⟨hd.withTape _, rfl⟩, touches_setCurrent d _⟩
  · obtain ⟨sink, hwrite, -, hcapacity, hflush⟩ :=
      Sink.write_of_infallible hd.capacity d.tape.current
    have hrun := Prim.run_output d
    rw [hwrite] at hrun
    exact ⟨_, _, _, rfl, rfl, hrun,
      ⟨⟨hd.breakdown, hd.chunk, hcapacity, hflush.trans hd.flushError⟩, rfl⟩, rfl, fun _ _ => rfl⟩
  · obtain ⟨source, hread, -, hbreakdown, hchunk⟩ :=
      Source.readByte_of_infallible hd.breakdown hd.chunk
    have hrun := Prim.run_input d
    have hsame (tape : Tape) : Device.Infallible ⟨tape, source, d.sink⟩ :=
      ⟨hbreakdown, hchunk ▸ hd.chunk, hd.capacity, hd.flushError⟩
    rw [hread] at hrun
    cases hbyte : d.source.rest.head? with
    | none =>
        rw [hbyte] at hrun
        exact ⟨_, _, _, rfl, rfl, hrun, ⟨hsame _, rfl⟩, rfl, fun _ _ => rfl⟩
    | some byte =>
        rw [hbyte] at hrun
        have htouches := touches_setCurrent d byte
        exact ⟨_, _, _, rfl, rfl, hrun, ⟨hsame _, rfl⟩, ⟨htouches.size, htouches.elsewhere⟩⟩

/-- A byte of a body, which may also be idle. -/
theorem assures_byte {b : UInt8} (hb : b ∈ cellBytes ∨ b ∈ idleBytes) (h : Stands r d)
    (hr : r ≤ bound) (hrest : ∀ d', Stands r d' → Keeps r d d' → Assures limit bound rest d' Q) :
    Assures limit bound (line [b] rest) d Q := by
  rcases hb with hb | hb
  · obtain ⟨hd, rfl⟩ := h
    obtain ⟨c, action, d', hc, hk, hrun, hstands, htouches⟩ := exists_run_cellByte hb hd
    rw [line_of_find? hc]
    exact .act hk hr hrun (hrest d' hstands htouches.keeps)
  · rw [line_of_idle hb]
    exact hrest d h (.refl r d)

theorem assures_minus (h : Stands r d) (hr : r ≤ bound)
    (hrest : ∀ d', Stands r d' → Keeps r d d' → d'.tape.current = d.tape.current - 1 →
      Assures limit bound rest d' Q) :
    Assures limit bound (line ['-'.toUInt8] rest) d Q := by
  obtain ⟨hd, rfl⟩ := h
  refine .act rfl hr (Prim.run_add 255 d)
    (hrest _ ⟨hd.withTape _, rfl⟩ (touches_setCurrent d _).keeps ?_)
  rw [Tape.current_setCurrent, UInt8.sub_eq_add_neg]
  rfl

theorem assures_line {bytes : List UInt8} (hb : ∀ b ∈ bytes, b ∈ cellBytes ∨ b ∈ idleBytes)
    (h : Stands r d) (hr : r ≤ bound)
    (hrest : ∀ d', Stands r d' → Keeps r d d' → Assures limit bound rest d' Q) :
    Assures limit bound (line bytes rest) d Q := by
  induction bytes generalizing d with
  | nil => exact hrest d h (.refl r d)
  | cons b bytes ih =>
      rw [line_cons]
      refine assures_byte (hb b List.mem_cons_self) h hr fun d' hstands hkeeps => ?_
      have htail : ∀ b ∈ bytes, b ∈ cellBytes ∨ b ∈ idleBytes :=
        fun b hm => hb b (List.mem_cons_of_mem _ hm)
      refine ih htail hstands fun d'' hstands' hkeeps' => ?_
      exact hrest d'' hstands' (hkeeps.trans hkeeps' (Nat.le_refl r))

/-! ## Loops -/

theorem toNat_sub_one {byte : UInt8} (h : byte ≠ 0) : (byte - 1).toNat + 1 = byte.toNat := by
  have hpos : 0 < byte.toNat := Nat.pos_of_ne_zero fun hz => h (UInt8.toNat_inj.mp hz)
  have hle : 1 ≤ byte := UInt8.le_iff_toNat_le.mpr hpos
  rw [UInt8.toNat_sub_of_le _ _ hle]
  exact Nat.sub_add_cancel hpos

theorem toNat_sub_one_lt {byte : UInt8} (h : byte ≠ 0) : (byte - 1).toNat < byte.toNat :=
  toNat_sub_one h ▸ Nat.lt_succ_self _

/-- A loop over a zero cell is passed over. -/
theorem assures_skip {body : Script} (h : Stands r d) (hr : r ≤ bound)
    (hz : d.tape.current = 0) (hrest : Assures limit bound rest d Q) :
    Assures limit bound (bracketed body rest) d Q := by
  refine .loop (· = d) (fun _ => 0) rfl rfl ?_ ?_ ?_ rfl
  · rintro _ rfl
    exact h.cursor ▸ hr
  · rintro _ rfl hnz
    exact absurd hz hnz
  · rintro _ rfl _
    exact hrest

/-- A loop that ends each round by counting down the cell on which it began. -/
theorem assures_countdown (body : Script → Script) (h : Stands r d) (hr : r ≤ bound)
    (hbody : ∀ d', Stands r d' → Keeps r d d' → ∀ (rest : Script) (Q : Device → Prop),
      (∀ d'', Stands r d'' → Keeps (r + 1) d' d'' → Assures limit bound rest d'' Q) →
      Assures limit bound (body rest) d' Q)
    (hrest : ∀ d', Stands r d' → Keeps r d d' → d'.tape.current = 0 →
      Assures limit bound rest d' Q) :
    Assures limit bound (bracketed (body (line ['-'.toUInt8] .done)) rest) d Q := by
  refine .loop (fun d' => Stands r d' ∧ Keeps r d d') (·.tape.current.toNat) rfl rfl
    (fun d' h' => h'.1.cursor ▸ hr) ?_ (fun d' h' hz => hrest d' h'.1 h'.2 hz) ⟨h, .refl r d⟩
  intro d' h' hnz
  obtain ⟨hstands, hkeeps⟩ := h'
  refine hbody d' hstands hkeeps _ _ fun d₁ hstands₁ hkeeps₁ => ?_
  refine assures_minus hstands₁ hr fun d₂ hstands₂ hkeeps₂ hcurrent => assures_done ?_
  have hsame : d₁.tape.current = d'.tape.current := by
    refine Tape.current_eq_of_cells (hstands₁.cursor.trans hstands.cursor.symm) ?_
    rw [hstands.cursor]
    exact hkeeps₁.below r (Nat.lt_succ_self r)
  have hwhole : Keeps r d d₂ :=
    (hkeeps.trans hkeeps₁ (Nat.le_succ r)).trans hkeeps₂ (Nat.le_refl r)
  refine ⟨⟨hstands₂, hwhole⟩, ?_⟩
  rw [hcurrent, hsame]
  exact toNat_sub_one_lt hnz

theorem assures_clearing (h : Stands q d) (hq : q + 1 ≤ bound) (hsize : bound < d.tape.cells.size)
    (hrest : ∀ d', Stands (q + 1) d' → Keeps (q + 1) d d' → d'.tape.current = 0 →
      Assures limit bound rest d' Q) :
    Assures limit bound (clearing rest) d Q := by
  refine assures_right h (by omega) (by omega) fun d₁ hstands hcells => ?_
  refine assures_countdown id hstands hq ?_ fun d₂ hstands' hkeeps hz => ?_
  · exact fun d' hstands' _ rest Q hnext => hnext d' hstands' (.refl _ d')
  · exact hrest d₂ hstands' ((Keeps.of_cells hcells _).trans hkeeps (Nat.le_refl _)) hz

/-- An inner body that works on the next cell leaves the counter as it was. -/
theorem assures_inside {inner : Script → Script} (h : Stands r d) (hr : r + 1 ≤ bound)
    (hsize : bound < d.tape.cells.size)
    (hinner : ∀ d', Stands (r + 1) d' → d'.tape.cells = d.tape.cells →
      ∀ (rest : Script) (Q : Device → Prop),
        (∀ d'', Stands (r + 1) d'' → Keeps (r + 1) d' d'' → Assures limit bound rest d'' Q) →
        Assures limit bound (inner rest) d' Q)
    (hrest : ∀ d', Stands r d' → Keeps (r + 1) d d' → Assures limit bound rest d' Q) :
    Assures limit bound (line ['>'.toUInt8] (inner (line ['<'.toUInt8] rest))) d Q := by
  refine assures_right h (by omega) (by omega) fun d₁ hstands₁ hcells₁ => ?_
  refine hinner d₁ hstands₁ hcells₁ _ _ fun d₂ hstands₂ hkeeps₂ => ?_
  refine assures_left hstands₂ hr fun d₃ hstands₃ hcells₃ => ?_
  have hthere : Keeps (r + 1) d d₂ := Keeps.trans (.of_cells hcells₁ _) hkeeps₂ (Nat.le_refl _)
  exact hrest d₃ hstands₃ (hthere.trans (.of_cells hcells₃ _) (Nat.le_refl _))

/-! ## Plans -/

/-- A body on the cell `q` ends there, keeps the cells before, and never goes beyond the cells
that its counted loops need. -/
theorem Plan.assures {shape : Shape} {depth items : Nat} {plan : Plan}
    (hfits : plan.Fits shape depth items) (hq : q + 2 * depth + 1 ≤ bound) (h : Stands q d)
    (hsize : bound < d.tape.cells.size)
    (hrest : ∀ d', Stands q d' → Keeps q d d' → Assures limit bound rest d' Q) :
    Assures limit bound (plan.tree rest) d Q := by
  induction plan generalizing depth items q d rest Q with
  | done => exact hrest d h (.refl q d)
  | byte b plan ih =>
      obtain ⟨-, hb, hplan⟩ := hfits
      refine assures_byte hb h (by omega) fun d₁ hstands₁ hkeeps₁ => ?_
      refine ih hplan hq hstands₁ (hkeeps₁.size ▸ hsize) fun d₂ hstands₂ hkeeps₂ => ?_
      exact hrest d₂ hstands₂ (hkeeps₁.trans hkeeps₂ (Nat.le_refl q))
  | dead filler plan ih =>
      obtain ⟨-, -, hplan⟩ := hfits
      refine assures_clearing h (by omega) hsize fun d₁ hstands₁ hkeeps₁ hz => ?_
      refine assures_skip hstands₁ (by omega) hz ?_
      refine assures_left hstands₁ (by omega) fun d₂ hstands₂ hcells => ?_
      have hkeeps₂ : Keeps q d d₂ :=
        (hkeeps₁.mono (Nat.le_succ q)).trans (.of_cells hcells q) (Nat.le_refl q)
      refine ih hplan hq hstands₂ (hkeeps₂.size ▸ hsize) fun d₃ hstands₃ hkeeps₃ => ?_
      exact hrest d₃ hstands₃ (hkeeps₂.trans hkeeps₃ (Nat.le_refl q))
  | counted count inner plan ihinner ihplan =>
      obtain ⟨-, hdepth, -, ⟨-, hinner⟩, hplan⟩ := hfits
      have hplus : ∀ b ∈ List.replicate count '+'.toUInt8, b ∈ cellBytes ∨ b ∈ idleBytes :=
        fun b hb => .inl (List.eq_of_mem_replicate hb ▸ List.mem_cons_self)
      refine assures_clearing h (by omega) hsize fun d₁ hstands₁ hkeeps₁ _ => ?_
      refine assures_line hplus hstands₁ (by omega) fun d₂ hstands₂ hkeeps₂ => ?_
      have hsize₂ : d₂.tape.cells.size = d.tape.cells.size := hkeeps₂.size.trans hkeeps₁.size
      refine assures_countdown
        (fun rest => line ['>'.toUInt8] (inner.tree (line ['<'.toUInt8] rest)))
        hstands₂ (by omega) ?_ fun d₃ hstands₃ hkeeps₃ _ => ?_
      · intro d' hstands' hkeeps' rest Q hnext
        have hsize' : bound < d'.tape.cells.size := by rwa [hkeeps'.size, hsize₂]
        refine assures_inside hstands' (by omega) hsize' (fun e hstands hcells rest Q => ?_) hnext
        exact ihinner hinner (by omega) hstands (hcells ▸ hsize')
      · have hthere : Keeps q d d₃ :=
          ((hkeeps₁.trans hkeeps₂ (Nat.le_refl _)).trans hkeeps₃ (Nat.le_refl _)).mono
            (Nat.le_succ q)
        refine assures_left hstands₃ (by omega) fun d₄ hstands₄ hcells₄ => ?_
        have hkeeps₄ : Keeps q d d₄ := hthere.trans (.of_cells hcells₄ q) (Nat.le_refl q)
        refine ihplan hplan hq hstands₄ (hkeeps₄.size ▸ hsize) fun d₅ hstands₅ hkeeps₅ => ?_
        exact hrest d₅ hstands₅ (hkeeps₄.trans hkeeps₅ (Nat.le_refl q))

end Sample

end TapeScript
