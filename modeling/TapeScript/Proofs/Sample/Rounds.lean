import TapeScript.Proofs.Sample.Tree
import TapeScript.Proofs.Script.Tracing
import Mathlib.Data.List.Basic

/-! # Rounds of loops

What a log says about one loop: which acts belong to a visit, and how many rounds a visit
takes. -/

namespace TapeScript

namespace Act

/-- The act begins a round of a loop. -/
def enters (a : Act) : Bool := a.command.isLoopOpen && a.tape.current != 0

/-- The act ends a round of a loop. -/
def ends (a : Act) : Bool := a.command.isLoopClose

theorem enters_of_zero {a : Act} (hz : a.tape.current = 0) : a.enters = false := by
  simp [enters, hz]

theorem enters_of_simple {a : Act} {action : Action} (hk : a.command.kind = .simple action) :
    a.enters = false := by
  simp [enters, Command.isLoopOpen, hk]

theorem ends_of_ne {a : Act} (hk : a.command.kind ≠ .loopClose) : a.ends = false := by
  rw [ends, Command.isLoopClose]
  split
  · contradiction
  · rfl

end Act

namespace Sample

/-- The positions of the brackets of a loop, the cell that it counts down, and how many rounds
it is to take whenever it is reached. -/
structure Loop where
  opening : Nat
  closing : Nat
  cell : Nat
  count : Nat
  deriving Repr, DecidableEq

namespace Loop

variable {l : Loop} {a : Act} {log log' xs ys : List Act} {n : Nat}

/-- The opening command of the loop is executed, on the loop's cell. -/
structure Opens (l : Loop) (a : Act) : Prop where
  position : a.position = l.opening
  kind : a.command.kind = .loopOpen
  cursor : a.tape.cursor = l.cell

structure Closes (l : Loop) (a : Act) : Prop where
  position : a.position = l.closing
  kind : a.command.kind = .loopClose

def Inside (l : Loop) (a : Act) : Prop := l.opening < a.position ∧ a.position < l.closing

def Outside (l : Loop) (a : Act) : Prop := a.position < l.opening ∨ l.closing < a.position

/-- So many rounds, and then the loop is left: whenever its opening command is reached the cursor
stands on the loop's cell, which is zero the last time only. -/
inductive Rounds (l : Loop) (P : List Act → Prop) : Nat → List Act → Prop where
  | left {a : Act} (ha : l.Opens a) (hz : a.tape.current = 0) : Rounds l P 0 [a]
  | round {n : Nat} {a b : Act} {inside log : List Act} (ha : l.Opens a)
      (hnz : a.tape.current ≠ 0) (hinside : P inside) (hb : l.Closes b) (h : Rounds l P n log) :
      Rounds l P (n + 1) (a :: (inside ++ b :: log))

/-- The loop is reached, and then its body is executed as often as it should be. -/
abbrev Visit (l : Loop) (log : List Act) : Prop := l.Rounds (∀ a ∈ ·, l.Inside a) l.count log

/-- The log is made of visits of the loop and of acts outside of it. -/
inductive Visited (l : Loop) : List Act → Prop where
  | nil : Visited l []
  | outside {a : Act} {log : List Act} (ha : l.Outside a) (h : Visited l log) :
      Visited l (a :: log)
  | visit {block log : List Act} (hblock : l.Visit block) (h : Visited l log) :
      Visited l (block ++ log)

theorem Rounds.mono {P R : List Act → Prop} (h : l.Rounds P n log) (hPR : ∀ xs, P xs → R xs) :
    l.Rounds R n log := by
  induction h with
  | left ha hz => exact .left ha hz
  | round ha hnz hinside hb _ ih => exact .round ha hnz (hPR _ hinside) hb ih

/-! ## Joining logs -/

theorem Visited.append (h : l.Visited log) (h' : l.Visited log') : l.Visited (log ++ log') := by
  induction h with
  | nil => exact h'
  | outside ha _ ih => exact .outside ha ih
  | visit hblock _ ih =>
      rw [List.append_assoc]
      exact .visit hblock ih

theorem visited_of_outside (h : ∀ a ∈ log, l.Outside a) : l.Visited log := by
  induction log with
  | nil => exact .nil
  | cons a log ih =>
      exact .outside (h a List.mem_cons_self) (ih fun b hb => h b (List.mem_cons_of_mem a hb))

theorem Visit.visited (h : l.Visit log) : l.Visited log :=
  List.append_nil log ▸ .visit h .nil

/-! ## Reaching a loop -/

/-- Behind the first act of a visit the opening command is reached from the closing one only. -/
theorem Rounds.exists_getLast? (hl : l.opening < l.closing)
    (h : l.Rounds (∀ a ∈ ·, l.Inside a) n log) (hlog : log = xs ++ a :: ys) (hxs : xs ≠ [])
    (ha : a.position = l.opening) : ∃ b ∈ xs.getLast?, b.position = l.closing := by
  induction h generalizing xs with
  | left =>
      obtain ⟨x, xs, rfl⟩ := List.exists_cons_of_ne_nil hxs
      simp at hlog
  | @round n a₀ b inside log _ _ hinside hclose _ ih =>
      obtain ⟨x, xs, rfl⟩ := List.exists_cons_of_ne_nil hxs
      obtain ⟨rfl, hrest⟩ := List.cons.inj hlog
      rcases List.append_eq_append_iff.mp hrest with ⟨zs, rfl, hzs⟩ | ⟨zs, rfl, hzs⟩
      · rcases List.cons_eq_append_iff.mp hzs with ⟨rfl, hb⟩ | ⟨zs', rfl, rfl⟩
        · obtain ⟨rfl, -⟩ := List.cons.inj hb
          exact absurd (ha.symm.trans hclose.position) (Nat.ne_of_lt hl)
        · cases zs' with
          | nil => exact ⟨b, List.getLast?_concat (l := a₀ :: inside), hclose.position⟩
          | cons z zs' =>
              obtain ⟨b', hb', hclose'⟩ := ih rfl (List.cons_ne_nil z zs')
              have hsplit : a₀ :: (inside ++ b :: z :: zs') =
                  a₀ :: (inside ++ [b]) ++ z :: zs' := by simp
              refine ⟨b', ?_, hclose'⟩
              rw [hsplit]
              exact List.mem_getLast?_append_of_mem_getLast? hb'
      · cases zs with
        | nil =>
            obtain ⟨rfl, -⟩ := List.cons.inj hzs
            exact absurd (ha.symm.trans hclose.position) (Nat.ne_of_lt hl)
        | cons z zs =>
            obtain ⟨rfl, -⟩ := List.cons.inj hzs
            have hin := hinside a (by simp)
            exact absurd ha (Nat.ne_of_gt hin.1)

/-- Whenever the loop is reached from elsewhere than its own end, a visit begins. -/
theorem Visited.exists_visit (hl : l.opening < l.closing) (h : l.Visited log)
    (hlog : log = xs ++ a :: ys) (ha : a.position = l.opening)
    (hlast : ∀ b ∈ xs.getLast?, b.position ≠ l.closing) :
    ∃ block rest, a :: ys = block ++ rest ∧ l.Visit block := by
  induction h generalizing xs with
  | nil => simp at hlog
  | @outside a₀ log hout _ ih =>
      cases xs with
      | nil =>
          obtain ⟨rfl, -⟩ := List.cons.inj hlog
          rcases hout with h | h <;> omega
      | cons x xs =>
          obtain ⟨rfl, hrest⟩ := List.cons.inj hlog
          refine ih hrest fun b hb => hlast b ?_
          exact List.singleton_append ▸ List.mem_getLast?_append_of_mem_getLast? hb
  | @visit block log hblock _ ih =>
      rcases List.append_eq_append_iff.mp hlog with ⟨zs, rfl, hzs⟩ | ⟨zs, rfl, hzs⟩
      · exact ih hzs fun b hb => hlast b (List.mem_getLast?_append_of_mem_getLast? hb)
      · by_cases hxs : xs = []
        · subst hxs
          exact ⟨zs, log, hzs, hblock⟩
        · cases zs with
          | nil =>
              rw [List.nil_append] at hzs
              exact ih (hzs.symm.trans (List.nil_append _).symm) (by simp)
          | cons z zs =>
              obtain ⟨rfl, -⟩ := List.cons.inj hzs
              obtain ⟨b, hb, hclose⟩ := hblock.exists_getLast? hl rfl hxs ha
              exact absurd hclose (hlast b hb)

/-- A loop that is to take no rounds is never entered. -/
theorem Visited.outside_or_opening (h : l.Visited log) (hcount : l.count = 0) (ha : a ∈ log) :
    l.Outside a ∨ a.position = l.opening ∧ a.tape.current = 0 := by
  induction h with
  | nil => cases ha
  | outside hout _ ih =>
      rcases List.mem_cons.mp ha with rfl | ha
      · exact .inl hout
      · exact ih ha
  | visit hblock _ ih =>
      rcases List.mem_append.mp ha with ha | ha
      · rw [Visit, hcount] at hblock
        cases hblock with
        | left hopen hz =>
            obtain rfl := List.mem_singleton.mp ha
            exact .inr ⟨hopen.position, hz⟩
      · exact ih ha

end Loop

/-! ## How many loops are entered at once -/

/-- At no time have more than `height` rounds begun that have not ended, and all of them end. -/
structure Rises (height : Nat) (log : List Act) : Prop where
  le : ∀ xs ys, log = xs ++ ys → xs.countP (·.enters) ≤ xs.countP (·.ends) + height
  eq : log.countP (·.enters) = log.countP (·.ends)

namespace Rises

variable {height : Nat} {a b : Act} {log log' : List Act}

theorem nil (height : Nat) : Rises height [] where
  le := fun xs ys h => by
    obtain ⟨rfl, -⟩ := List.append_eq_nil_iff.mp h.symm
    exact Nat.zero_le _
  eq := rfl

theorem append (h : Rises height log) (h' : Rises height log') : Rises height (log ++ log') where
  le := fun xs ys hlog => by
    rcases List.append_eq_append_iff.mp hlog with ⟨zs, rfl, hzs⟩ | ⟨zs, rfl, -⟩
    · have hle := h'.le zs ys hzs
      rw [List.countP_append, List.countP_append, h.eq]
      omega
    · exact h.le xs zs rfl
  eq := by rw [List.countP_append, List.countP_append, h.eq, h'.eq]

/-- An act that neither begins nor ends a round. -/
theorem single (height : Nat) (henters : a.enters = false) (hends : a.ends = false) :
    Rises height [a] where
  le := fun xs ys h => by
    have hsub : xs.Sublist [a] := h ▸ List.sublist_append_left xs ys
    have hle := hsub.countP_le (p := (·.enters))
    simp only [List.countP_singleton, henters, Bool.false_eq_true, if_false] at hle
    omega
  eq := by simp [henters, hends]

/-- One more round around others. -/
theorem enclose (h : Rises height log) (henters : a.enters = true) (ha : a.ends = false)
    (hb : b.enters = false) (hends : b.ends = true) :
    Rises (height + 1) (a :: (log ++ [b])) where
  le := fun xs ys hlog => by
    cases xs with
    | nil => exact Nat.zero_le _
    | cons x xs =>
        obtain ⟨rfl, hrest⟩ := List.cons.inj hlog
        simp only [List.countP_cons, henters, ha, if_true, Bool.false_eq_true, if_false]
        rcases List.append_eq_append_iff.mp hrest with ⟨zs, rfl, hzs⟩ | ⟨zs, rfl, -⟩
        · have hlast := (List.sublist_append_left zs ys).countP_le (p := (·.enters))
          simp only [← hzs, List.countP_singleton, hb, Bool.false_eq_true, if_false] at hlast
          rw [List.countP_append, List.countP_append, h.eq]
          omega
        · have hle := h.le xs zs rfl
          omega
  eq := by simp [henters, ha, hb, hends, h.eq]

end Rises

/-! ## Regions of a script -/

/-- What the commands from `lo` to `hi` execute visits these loops, and enters no others. -/
structure Sound (lo hi : Nat) (loops : List Loop) (height : Nat) (log : List Act) : Prop where
  le : lo ≤ hi
  within : ∀ l ∈ loops, lo ≤ l.opening ∧ l.opening < l.closing ∧ l.closing < hi
  range : ∀ a ∈ log, lo ≤ a.position ∧ a.position < hi
  visited : ∀ l ∈ loops, l.Visited log
  entered : ∀ a ∈ log, a.enters = true → ∃ l ∈ loops, l.count ≠ 0 ∧ a.position = l.opening
  rises : Rises height log

variable {lo mid hi height : Nat} {loops loops' : List Loop} {log log' : List Act} {a : Act}
  {l : Loop}

namespace Sound

theorem nil (n height : Nat) : Sound n n [] height [] where
  le := Nat.le_refl n
  within := fun _ h => absurd h List.not_mem_nil
  range := fun _ h => absurd h List.not_mem_nil
  visited := fun _ h => absurd h List.not_mem_nil
  entered := fun _ h => absurd h List.not_mem_nil
  rises := .nil height

/-- One region behind the other. -/
theorem append (h : Sound lo mid loops height log) (h' : Sound mid hi loops' height log') :
    Sound lo hi (loops ++ loops') height (log ++ log') where
  le := Nat.le_trans h.le h'.le
  within := fun l hl => by
    have hle := h.le
    have hle' := h'.le
    rcases List.mem_append.mp hl with hl | hl
    · have hin := h.within l hl
      omega
    · have hin := h'.within l hl
      omega
  range := fun a ha => by
    have hle := h.le
    have hle' := h'.le
    rcases List.mem_append.mp ha with ha | ha
    · have hin := h.range a ha
      omega
    · have hin := h'.range a ha
      omega
  visited := fun l hl => by
    rcases List.mem_append.mp hl with hl | hl
    · refine (h.visited l hl).append (Loop.visited_of_outside fun a ha => .inr ?_)
      exact Nat.lt_of_lt_of_le (h.within l hl).2.2 (h'.range a ha).1
    · refine Loop.Visited.append (Loop.visited_of_outside fun a ha => .inl ?_) (h'.visited l hl)
      exact Nat.lt_of_lt_of_le (h.range a ha).2 (h'.within l hl).1
  entered := fun a ha henters => by
    rcases List.mem_append.mp ha with ha | ha
    · obtain ⟨l, hl, hcount⟩ := h.entered a ha henters
      exact ⟨l, List.mem_append_left _ hl, hcount⟩
    · obtain ⟨l, hl, hcount⟩ := h'.entered a ha henters
      exact ⟨l, List.mem_append_right _ hl, hcount⟩
  rises := h.rises.append h'.rises

/-- An act that neither begins nor ends a round, with nothing else behind it in the region. -/
theorem single (height : Nat) (henters : a.enters = false) (hends : a.ends = false)
    (hlt : a.position < hi) : Sound a.position hi [] height [a] where
  le := Nat.le_of_lt hlt
  within := fun _ h => absurd h List.not_mem_nil
  range := fun b hb => by
    obtain rfl := List.mem_singleton.mp hb
    exact ⟨Nat.le_refl _, hlt⟩
  visited := fun _ h => absurd h List.not_mem_nil
  entered := fun b hb hb' => by
    obtain rfl := List.mem_singleton.mp hb
    exact absurd hb' (henters ▸ Bool.false_ne_true)
  rises := .single height henters hends

/-- A loop that lies in the region belongs to its loops if it is visited. -/
theorem cons (h : Sound lo hi loops height log)
    (hl : lo ≤ l.opening ∧ l.opening < l.closing ∧ l.closing < hi) (hvisited : l.Visited log) :
    Sound lo hi (l :: loops) height log where
  le := h.le
  within := List.forall_mem_cons.mpr ⟨hl, h.within⟩
  range := h.range
  visited := List.forall_mem_cons.mpr ⟨hvisited, h.visited⟩
  entered := fun a ha henters => by
    obtain ⟨l', hl', hcount⟩ := h.entered a ha henters
    exact ⟨l', List.mem_cons_of_mem l hl', hcount⟩
  rises := h.rises

end Sound

namespace Loop

theorem Opens.enters (h : l.Opens a) (hnz : a.tape.current ≠ 0) : a.enters = true := by
  simp [Act.enters, Command.isLoopOpen, h.kind, hnz]

theorem Opens.not_ends (h : l.Opens a) : a.ends = false :=
  Act.ends_of_ne (by simp [h.kind])

theorem Closes.ends (h : l.Closes a) : a.ends = true := by
  simp [Act.ends, Command.isLoopClose, h.kind]

theorem Closes.not_enters (h : l.Closes a) : a.enters = false := by
  have hk := h.kind
  simp [Act.enters, Command.isLoopOpen, hk]

/-! ## Rounds around a region -/

section Sound

variable {n : Nat} (h : l.Rounds (Sound (l.opening + 1) l.closing loops height) n log)
include h

theorem Rounds.range (hl : l.opening < l.closing) :
    ∀ a ∈ log, l.opening ≤ a.position ∧ a.position < l.closing + 1 := by
  induction h with
  | left ha _ =>
      intro x hx
      obtain rfl := List.mem_singleton.mp hx
      have hposition := ha.position
      omega
  | round ha _ hinside hb _ ih =>
      intro x hx
      simp only [List.mem_cons, List.mem_append] at hx
      have hopening := ha.position
      have hclosing := hb.position
      rcases hx with rfl | hx | rfl | hx
      · omega
      · have hin := hinside.range x hx
        omega
      · omega
      · exact ih x hx

theorem Rounds.visited {l' : Loop} (hmem : l' ∈ loops)
    (hwithin : l.opening < l'.opening ∧ l'.closing < l.closing) : l'.Visited log := by
  induction h with
  | left ha _ => exact .outside (.inl (ha.position ▸ hwithin.1)) .nil
  | round ha _ hinside hb _ ih =>
      refine .outside (.inl (ha.position ▸ hwithin.1)) ((hinside.visited l' hmem).append ?_)
      exact .outside (.inr (hb.position ▸ hwithin.2)) ih

theorem Rounds.entered (hn : n ≤ l.count) : ∀ a ∈ log, a.enters = true →
    ∃ l' ∈ l :: loops, l'.count ≠ 0 ∧ a.position = l'.opening := by
  induction h with
  | left ha hz =>
      intro x hx henters
      obtain rfl := List.mem_singleton.mp hx
      exact absurd henters (Act.enters_of_zero hz ▸ Bool.false_ne_true)
  | round ha _ hinside hb _ ih =>
      intro x hx henters
      simp only [List.mem_cons, List.mem_append] at hx
      rcases hx with rfl | hx | rfl | hx
      · exact ⟨l, List.mem_cons_self, by omega, ha.position⟩
      · obtain ⟨l', hl', hcount⟩ := hinside.entered x hx henters
        exact ⟨l', List.mem_cons_of_mem l hl', hcount⟩
      · exact absurd henters (hb.not_enters ▸ Bool.false_ne_true)
      · exact ih (Nat.le_of_succ_le hn) x hx henters

theorem Rounds.rises : Rises (height + 1) log := by
  induction h with
  | left ha hz => exact .single _ (Act.enters_of_zero hz) ha.not_ends
  | @round n a b inside log ha hnz hinside hb _ ih =>
      have hround := hinside.rises.enclose (ha.enters hnz) ha.not_ends hb.not_enters hb.ends
      have hsplit : a :: (inside ++ b :: log) = a :: (inside ++ [b]) ++ log := by simp
      rw [hsplit]
      exact hround.append ih

end Sound

/-- A loop that takes its rounds, together with the loops in its body. -/
theorem Rounds.sound (hl : l.opening < l.closing)
    (h : l.Rounds (Sound (l.opening + 1) l.closing loops height) l.count log)
    (hcount : l.count ≠ 0) : Sound l.opening (l.closing + 1) (l :: loops) (height + 1) log := by
  have hwithin : ∀ l' ∈ loops, l.opening + 1 ≤ l'.opening ∧ l'.opening < l'.closing ∧
      l'.closing < l.closing := by
    obtain ⟨n, hn⟩ := Nat.exists_eq_succ_of_ne_zero hcount
    rw [hn] at h
    cases h with
    | round _ _ hinside _ _ => exact hinside.within
  have hvisit : l.Visit log := h.mono fun xs hxs a ha => (hxs.range a ha : _ ∧ _)
  refine ⟨by omega, ?_, h.range hl, ?_, h.entered (Nat.le_refl _), h.rises⟩
  · refine List.forall_mem_cons.mpr ⟨⟨Nat.le_refl _, hl, Nat.lt_succ_self _⟩, fun l' hl' => ?_⟩
    have hin := hwithin l' hl'
    omega
  · refine List.forall_mem_cons.mpr ⟨hvisit.visited, fun l' hl' => ?_⟩
    have hin := hwithin l' hl'
    exact h.visited hl' ⟨hin.1, hin.2.2⟩

end Loop

end Sample

end TapeScript
