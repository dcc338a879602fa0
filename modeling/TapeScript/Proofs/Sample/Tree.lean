import TapeScript.Proofs.Builtin
import TapeScript.Proofs.Script.Parsing
import TapeScript.Sample.Plan

/-! # Scripts of plans

The tree of a rendered plan, and how deep its brackets are nested. -/

namespace TapeScript

namespace Bracket

variable {d e : Nat} {xs ys : List Bracket}

theorem le_peakFrom (d : Nat) (xs : List Bracket) : d ≤ peakFrom d xs := by
  induction xs generalizing d with
  | nil => exact Nat.le_refl d
  | cons x xs ih =>
      cases x with
      | opening => exact Nat.le_trans (Nat.le_succ d) (ih (d + 1))
      | closing => exact Nat.le_max_left _ _

theorem peakFrom_append (h : depthFrom? d xs = some e) (ys : List Bracket) :
    peakFrom d (xs ++ ys) = max (peakFrom d xs) (peakFrom e ys) := by
  induction xs generalizing d with
  | nil =>
      obtain rfl := Option.some.inj h
      exact (Nat.max_eq_right (le_peakFrom d ys)).symm
  | cons x xs ih =>
      cases x with
      | opening => exact ih h
      | closing =>
          cases d with
          | zero => cases h
          | succ d =>
              simp only [List.cons_append, peakFrom, Nat.add_sub_cancel]
              rw [ih h, Nat.max_assoc]

/-- Balanced brackets, nested no deeper than `height`. -/
structure Nests (height : Nat) (xs : List Bracket) : Prop where
  balanced : Balanced xs
  peak : ∀ d, peakFrom d xs ≤ d + height

namespace Nests

variable {height : Nat}

theorem nil (height : Nat) : Nests height [] := ⟨rfl, fun d => Nat.le_add_right d height⟩

theorem mono {height' : Nat} (h : Nests height xs) (hle : height ≤ height') : Nests height' xs :=
  ⟨h.balanced, fun d => Nat.le_trans (h.peak d) (Nat.add_le_add_left hle d)⟩

theorem append (hx : Nests height xs) (hy : Nests height ys) : Nests height (xs ++ ys) where
  balanced := by
    rw [Balanced, depthFrom?_append, hx.balanced, Option.bind_some, hy.balanced]
  peak := fun d => by
    rw [peakFrom_append (hx.balanced.depthFrom? d)]
    exact Nat.max_le.mpr ⟨hx.peak d, hy.peak d⟩

theorem nest (h : Nests height xs) : Nests (height + 1) (opening :: (xs ++ [closing])) where
  balanced := by
    rw [Balanced, depthFrom?, depthFrom?_append, h.balanced.depthFrom?, Option.bind_some]
    rfl
  peak := fun d => by
    rw [peakFrom, peakFrom_append (h.balanced.depthFrom? (d + 1))]
    have hpeak := h.peak (d + 1)
    simp only [peakFrom]
    omega

end Nests

end Bracket

namespace Sample

open TapeScript.Bracket Script

/-! ## How deep a plan is nested -/

theorem ofBytes_cons_of_none {b : UInt8} (hb : ofByte? b = none) (bytes : List UInt8) :
    ofBytes (b :: bytes) = ofBytes bytes := by
  rw [ofBytes_cons, hb]

theorem ofByte?_fillerByte {b : UInt8} (h : b ∈ fillerBytes) : ofByte? b = none := by
  have hall : fillerBytes.all (ofByte? · = none) = true := rfl
  exact of_decide_eq_true (List.all_eq_true.mp hall b h)

theorem ofByte?_planByte {b : UInt8} (h : b ∈ cellBytes ∨ b ∈ idleBytes) : ofByte? b = none := by
  have hall : (cellBytes ++ idleBytes).all (ofByte? · = none) = true := rfl
  exact of_decide_eq_true (List.all_eq_true.mp hall b (List.mem_append.mpr h))

/-- Brackets around some bytes. -/
theorem ofBytes_nest (inner rest : List UInt8) :
    ofBytes ('['.toUInt8 :: (inner ++ ']'.toUInt8 :: rest)) =
      opening :: (ofBytes inner ++ [closing]) ++ ofBytes rest := by
  have hopening : ofByte? '['.toUInt8 = some opening := rfl
  have hclosing : ofByte? ']'.toUInt8 = some closing := rfl
  simp only [ofBytes_cons, ofBytes_append, hopening, hclosing, List.append_assoc,
    List.cons_append, List.nil_append]

theorem Filler.nests {shape : Shape} {depth items : Nat} {filler : Filler}
    (h : filler.Fits shape depth items) : Nests depth (ofBytes filler.render) := by
  induction filler generalizing depth items with
  | done => exact .nil depth
  | byte b rest ih =>
      obtain ⟨-, hb, hrest⟩ := h
      rw [render, ofBytes_cons_of_none (ofByte?_fillerByte hb)]
      exact ih hrest
  | nest inner rest ihinner ihrest =>
      obtain ⟨-, hdepth, hinner, hrest⟩ := h
      have hnest := (ihinner hinner).nest
      rw [Nat.sub_add_cancel hdepth] at hnest
      rw [render, ofBytes_nest]
      exact hnest.append (ihrest hrest)

theorem Plan.nests {shape : Shape} {depth items : Nat} {plan : Plan}
    (h : plan.Fits shape depth items) : Nests (depth + 4) (ofBytes plan.render) := by
  have hclear (depth : Nat) : Nests (depth + 4) (ofBytes clearNext) :=
    (Nests.nil 0).nest.mono (by omega)
  induction plan generalizing depth items with
  | done => exact .nil _
  | byte b rest ih =>
      obtain ⟨-, hb, hrest⟩ := h
      rw [render, ofBytes_cons_of_none (ofByte?_planByte hb)]
      exact ih hrest
  | dead filler rest ih =>
      obtain ⟨-, ⟨height, hheight, hfiller⟩, hrest⟩ := h
      have hleft : ofByte? '<'.toUInt8 = none := rfl
      rw [render, ofBytes_append, ofBytes_nest, ofBytes_cons_of_none hleft]
      exact (hclear depth).append (((Filler.nests hfiller).nest.mono (by omega)).append (ih hrest))
  | counted count inner rest ihinner ihrest =>
      obtain ⟨-, hdepth, -, ⟨-, hinner⟩, hrest⟩ := h
      have hplus : ofBytes (List.replicate count '+'.toUInt8) = [] := by
        rw [ofBytes, List.filterMap_replicate_of_none rfl]
      have hloop : Nests (depth + 4) (opening :: (ofBytes inner.render ++ [closing])) :=
        (ihinner hinner).nest.mono (by omega)
      have hsplit : ofBytes (counted count inner rest).render =
          ofBytes clearNext ++ (opening :: (ofBytes inner.render ++ [closing]) ++
            ofBytes rest.render) := by
        have henter : ofBytes enter = [opening] := rfl
        have hleave : ofBytes leave = [closing] := rfl
        simp only [render, ofBytes_append, hplus, henter, hleave, List.append_assoc,
          List.nil_append, List.cons_append]
      rw [hsplit]
      exact (hclear depth).append (hloop.append (ihrest hrest))

theorem Plan.render_ne_nil {plan : Plan} (h : 0 < plan.length) : plan.render ≠ [] := by
  cases plan with
  | done => cases h
  | byte b rest => exact List.cons_ne_nil _ _
  | dead filler rest => exact List.cons_ne_nil _ _
  | counted count inner rest => exact List.cons_ne_nil _ _

/-! ## Trees -/

/-- The commands of some bytes, one after the other. -/
def line (bytes : List UInt8) (rest : Script) : Script :=
  (Dialect.builtin.commandsOf bytes).foldr .act rest

def bracketed (body rest : Script) : Script :=
  .loop ⟨'['.toUInt8, .loopOpen⟩ body ⟨']'.toUInt8, .loopClose⟩ rest

def Filler.tree : Filler → Script → Script
  | done, rest => rest
  | byte b filler, rest => line [b] (filler.tree rest)
  | nest inner filler, rest => bracketed (inner.tree .done) (filler.tree rest)

/-- Goes to the next cell and clears it. -/
def clearing (rest : Script) : Script :=
  line ['>'.toUInt8] (bracketed (line ['-'.toUInt8] .done) rest)

def Plan.tree : Plan → Script → Script
  | done, rest => rest
  | byte b plan, rest => line [b] (plan.tree rest)
  | dead filler plan, rest =>
      clearing (bracketed (filler.tree .done) (line ['<'.toUInt8] (plan.tree rest)))
  | counted count inner plan, rest =>
      clearing <| line (List.replicate count '+'.toUInt8) <|
        bracketed (line ['>'.toUInt8] (inner.tree (line ['<'.toUInt8] (line ['-'.toUInt8] .done))))
          (line ['<'.toUInt8] (plan.tree rest))

/-- What the built-in commands make of some bytes is a proper tree, in front of any other. -/
structure Renders (bytes : List UInt8) (tree : Script → Script) : Prop where
  toCommands : ∀ rest,
    (tree rest).toCommands = Dialect.builtin.commandsOf bytes ++ rest.toCommands
  proper : ∀ rest, rest.Proper → (tree rest).Proper

section Renders

variable {xs ys : List UInt8} {t u : Script → Script}

/-- A byte that is no bracket stands for a simple command, if for any. -/
theorem exists_kind_simple {b : UInt8} {c : Command} (hb : ofByte? b = none)
    (hc : Dialect.builtin.find? b = some c) : ∃ action, c.kind = .simple action := by
  rw [ofByte?_eq_bind, hc, Option.bind_some, ofCommand?] at hb
  cases hk : c.kind with
  | simple action => exact ⟨action, rfl⟩
  | loopOpen => simp only [hk] at hb; cases hb
  | loopClose => simp only [hk] at hb; cases hb

theorem renders_line {bytes : List UInt8} (h : ∀ b ∈ bytes, ofByte? b = none) :
    Renders bytes (line bytes) := by
  have hsimple : ∀ c ∈ Dialect.builtin.commandsOf bytes, ∃ action, c.kind = .simple action := by
    intro c hc
    obtain ⟨b, hb, hfind⟩ := List.mem_filterMap.mp hc
    exact exists_kind_simple (h b hb) hfind
  constructor <;> intro rest <;> rw [line]
  · induction Dialect.builtin.commandsOf bytes with
    | nil => rfl
    | cons c cs ih => exact congrArg (c :: ·) ih
  · intro hrest
    generalize Dialect.builtin.commandsOf bytes = cs at hsimple
    induction cs with
    | nil => exact hrest
    | cons c cs ih =>
        obtain ⟨action, hk⟩ := hsimple c List.mem_cons_self
        exact .act hk (ih fun c hc => hsimple c (List.mem_cons_of_mem _ hc))

theorem renders_byte {b : UInt8} (h : ofByte? b = none) : Renders [b] (line [b]) :=
  renders_line fun _ hmem => List.mem_singleton.mp hmem ▸ h

theorem Renders.append (hx : Renders xs t) (hy : Renders ys u) :
    Renders (xs ++ ys) fun rest => t (u rest) where
  toCommands := fun rest => by
    rw [hx.toCommands, hy.toCommands, Dialect.commandsOf_append, List.append_assoc]
  proper := fun rest hrest => hx.proper _ (hy.proper rest hrest)

theorem Renders.bracketed (h : Renders xs t) :
    Renders ('['.toUInt8 :: (xs ++ [']'.toUInt8])) (bracketed (t .done)) where
  toCommands := fun rest => by
    have hopening : Dialect.builtin.find? '['.toUInt8 = some ⟨'['.toUInt8, .loopOpen⟩ := rfl
    have hclosing : Dialect.builtin.find? ']'.toUInt8 = some ⟨']'.toUInt8, .loopClose⟩ := rfl
    have htree : (Sample.bracketed (t .done) rest).toCommands =
        ⟨'['.toUInt8, .loopOpen⟩ ::
          ((t .done).toCommands ++ ⟨']'.toUInt8, .loopClose⟩ :: rest.toCommands) := rfl
    rw [htree, h.toCommands]
    simp only [Dialect.commandsOf, List.filterMap_cons, List.filterMap_append, hopening, hclosing,
      List.filterMap_nil, Script.toCommands, List.append_assoc, List.cons_append, List.nil_append]
  proper := fun rest hrest => .loop rfl rfl (h.proper .done .done) hrest

theorem renders_clearing : Renders Plan.clearNext clearing :=
  (renders_byte (b := '>'.toUInt8) rfl).append (renders_byte (b := '-'.toUInt8) rfl).bracketed

end Renders

theorem Filler.renders {shape : Shape} {depth items : Nat} {filler : Filler}
    (h : filler.Fits shape depth items) : Renders filler.render filler.tree := by
  induction filler generalizing depth items with
  | done => exact ⟨fun _ => rfl, fun _ h => h⟩
  | byte b rest ih =>
      obtain ⟨-, hb, hrest⟩ := h
      exact (renders_byte (ofByte?_fillerByte hb)).append (ih hrest)
  | nest inner rest ihinner ihrest =>
      obtain ⟨-, -, hinner, hrest⟩ := h
      have hrender : (nest inner rest).render =
          '['.toUInt8 :: (inner.render ++ [']'.toUInt8]) ++ rest.render := by
        simp only [render, List.append_assoc, List.cons_append, List.nil_append]
      rw [hrender]
      exact (ihinner hinner).bracketed.append (ihrest hrest)

theorem Plan.renders {shape : Shape} {depth items : Nat} {plan : Plan}
    (h : plan.Fits shape depth items) : Renders plan.render plan.tree := by
  have hleft := renders_byte (b := '<'.toUInt8) rfl
  induction plan generalizing depth items with
  | done => exact ⟨fun _ => rfl, fun _ h => h⟩
  | byte b rest ih =>
      obtain ⟨-, hb, hrest⟩ := h
      exact (renders_byte (ofByte?_planByte hb)).append (ih hrest)
  | dead filler rest ih =>
      obtain ⟨-, ⟨height, -, hfiller⟩, hrest⟩ := h
      have hrender : (dead filler rest).render = clearNext ++
          ('['.toUInt8 :: (filler.render ++ [']'.toUInt8]) ++ (['<'.toUInt8] ++ rest.render)) := by
        simp only [render, List.append_assoc, List.cons_append, List.nil_append]
      rw [hrender]
      exact renders_clearing.append
        ((Filler.renders hfiller).bracketed.append (hleft.append (ih hrest)))
  | counted count inner rest ihinner ihrest =>
      obtain ⟨-, -, -, ⟨-, hinner⟩, hrest⟩ := h
      have hplus : Renders _ (line (List.replicate count '+'.toUInt8)) :=
        renders_line fun b hmem => List.eq_of_mem_replicate hmem ▸ rfl
      have hright := renders_byte (b := '>'.toUInt8) rfl
      have hminus := renders_byte (b := '-'.toUInt8) rfl
      have hloop := (hright.append ((ihinner hinner).append (hleft.append hminus))).bracketed
      have hrender : (counted count inner rest).render = clearNext ++
          (List.replicate count '+'.toUInt8 ++
            ('['.toUInt8 :: (['>'.toUInt8] ++ (inner.render ++ (['<'.toUInt8] ++ ['-'.toUInt8])) ++
              [']'.toUInt8]) ++ (['<'.toUInt8] ++ rest.render))) := by
        simp only [render, enter, leave, List.map_cons, List.map_nil, List.append_assoc,
          List.cons_append, List.nil_append]
      rw [hrender]
      exact renders_clearing.append (hplus.append (hloop.append (hleft.append (ihrest hrest))))

end Sample

end TapeScript
