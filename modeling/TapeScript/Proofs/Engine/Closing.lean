import TapeScript.Proofs.Engine.Discipline
import TapeScript.Proofs.Run.Outline

/-! # Behind a closing command

What a closing command leads to lies in loops that are closed. A command in a closed loop is
followed by another one, up to the closing command, and that one leads back. So execution
runs out of commands only where an opening command leaves its loop, which is over a zero
cell. -/

namespace TapeScript

namespace Skeleton

variable {s t : Skeleton} {f l id : Nat} {c : Command}

/-- From `f` on, every node lies in a closed loop. -/
def Sealed (s : Skeleton) (f : Nat) : Prop :=
  ∀ ⦃id⦄, f ≤ id → id < s.size → ∃ l, s.parent? id = some l ∧ l ∉ s.openLoops

theorem Sealed.of_sameShape (h : t.Sealed f) (hs : s.SameShape t) : s.Sealed f := by
  simp only [Sealed, hs.size, hs.parent?, hs.openLoops]
  exact h

/-- A loop is closed together with all that was opened inside it. -/
theorem sealed_record (h : s.Linked) (hn : s.Nested) (hk : c.kind = .loopClose)
    (hl : s.innermost = some l) : (s.record c).state.Sealed (l + 1) := by
  have hpush := hn.push h.toThreaded (c := c) (by simp [hk])
  have hmem : l ∈ (s.push c).openLoops := List.mem_of_head? hl
  simp only [record, hk]
  intro id hid hlt
  rw [size, nodes_sealLoop] at hlt
  obtain ⟨l', hparent, hle⟩ := hpush.inside hmem hid hlt
  refine ⟨l', (parent?_sealLoop _ id).trans hparent, fun hopen => ?_⟩
  -- the loops that stay open begin before the one that is closed
  obtain ⟨outer, ho⟩ : ∃ outer, s.openLoops = l :: outer := List.head?_eq_some_iff.mp hl
  have hsorted := h.open_sorted
  rw [openLoops_sealLoop, openLoops_push, ho, List.tail_cons] at hopen
  rw [ho] at hsorted
  have hlt' := (List.pairwise_cons.mp hsorted).1 l' hopen
  omega

/-- Only a closing command is the last one of a closed loop. -/
theorem Sealed.next?_ne_none (hs : s.Sealed f) (h : s.Linked) (hid : f ≤ id)
    (hc : s.command? id = some c) (hk : c.kind ≠ .loopClose) : s.next? id ≠ none := by
  intro hn
  obtain ⟨l, hparent, hopen⟩ := hs hid (lt_size_of_command? hc)
  obtain ⟨last, d, hlast, hd, hclose⟩ := h.closed (h.parent_isLoop hparent) hopen
  have hleads := (h.endsWithClose hd hclose hlast).leads id hparent
  obtain rfl := hleads.eq_of_next_eq_none hn
  obtain rfl := Option.some.inj (hc.symm.trans hd)
  exact hk hclose

end Skeleton

namespace Engine

variable {c : Command} {e e' : Engine} {f l : Nat}

/-- When nothing is due, the current cell is zero. -/
def IdleOverZero (e : Engine) : Prop :=
  e.skeleton.pending = none → e.device.tape.current = 0

/-- A closing command is due once it is recorded, unless it ends a scan. -/
theorem idleOverZero_record (h : e.Ordered) (hr : e.record c = .ok e')
    (hk : c.kind = .loopClose) : e'.IdleOverZero := by
  intro hpending
  have hstate := state_record c e
  rw [hr, Outcome.state_ok] at hstate
  subst hstate
  cases hs : e.skeleton.scanned with
  | some l => exact (h.scans hs).zero
  | none =>
      have hinnermost : e.skeleton.innermost ≠ none := by
        rw [Skeleton.innermost, ne_eq, List.head?_eq_none_iff]
        exact openLoops_of_record_eq_ok hr hk
      have hdue : (e.skeleton.record c).state.pending = some _ :=
        Skeleton.pending_record fun _ => hs ▸ hinnermost.symm
      rw [hdue] at hpending
      cases hpending

/-- In a closed loop a turn leads on to another command, unless it leaves the loop. -/
theorem Confined.idleOverZero_ran (h : Confined f e) (hsealed : e.skeleton.Sealed f)
    (ht : e.turn = .ran e') : e'.IdleOverZero := by
  intro hpending
  rcases htake : e.skeleton.take with ⟨_ | d, s⟩
  · rw [turn_idle htake] at ht
    cases ht
  · obtain ⟨id, htakes⟩ := h.takes htake
    have hnext (hk : d.kind ≠ .loopClose) : s.pending ≠ none := by
      rw [htakes.skeleton]
      exact hsealed.next?_ne_none h.linked htakes.le_id htakes.command hk
    rw [turn_eq_act htake] at ht
    cases ha : e.progress.act e.limit d with
    | fault cause p =>
        rw [ha] at ht
        cases ht
    | ok p =>
        rw [ha] at ht
        obtain rfl := Turn.ran.inj ht
        dsimp only at hpending ⊢
        cases hk : d.kind with
        | simple action =>
            simp only [Engine.passed, hk] at hpending
            exact absurd hpending (hnext (by simp [hk]))
        | loopOpen =>
            by_contra hne
            simp only [Engine.passed, hk, if_neg hne] at hpending
            exact hnext (by simp [hk]) hpending
        | loopClose =>
            simp only [Engine.passed, hk, Skeleton.repeatLoop_of_last htakes.last] at hpending
            cases hpending

theorem AtTurn.idleOverZero (h : AtTurn c e e') (ho : e.Ordered) (hk : c.kind = .loopClose) :
    e'.IdleOverZero := by
  obtain ⟨l, hl⟩ : ∃ l, e.skeleton.innermost = some l := by
    obtain ⟨e₁, hr, -⟩ := h
    obtain ⟨l, outer, hopen⟩ := List.exists_cons_of_ne_nil (openLoops_of_record_eq_ok hr hk)
    exact ⟨l, by rw [Skeleton.innermost, hopen, List.head?_cons]⟩
  let P (e : Engine) : Prop := Confined (l + 1) e ∧ e.skeleton.Sealed (l + 1) ∧ e.IdleOverZero
  suffices hall : P e' from hall.2.2
  refine h.induction (P := P) (fun e₁ hr hs => ⟨?_, ?_, ?_⟩) ?_
  · exact Skeleton.ground_loopClose hk hl ▸ Confined.of_record ho hr hs
  · have hsealed := Skeleton.sealed_record ho.linked ho.nested hk hl
    rwa [← skeleton_record, hr] at hsealed
  · exact idleOverZero_record ho hr hk
  · rintro e₁ e₂ ⟨hconfined, hsealed, -⟩ ht
    have hshape := sameShape_turn e₁
    rw [ht] at hshape
    exact ⟨hconfined.ran ht, hsealed.of_sameShape hshape, hconfined.idleOverZero_ran hsealed ht⟩

/-- A step of a closing command that ends well leaves a zero cell behind, whether it executed
the command, ended a scan or was passed over. -/
theorem zero_behind_close {device : Device} {limit : Option Nat} {commands : List Command}
    {fuel : Nat} (h : Stepped { device, limit } commands e) (hk : c.kind = .loopClose)
    (hs : e.step fuel c = some (.ok e')) : e'.device.tape.current = 0 := by
  have ho := h.ordered
  cases stepEnds hs with
  | scanning hr hscan =>
      have hrecorded := ho.record c
      rw [hr] at hrecorded
      obtain ⟨l, hl⟩ := Option.ne_none_iff_exists'.mp hscan
      exact (hrecorded.scans hl).zero
  | idle hat ht =>
      obtain ⟨rfl, hpending⟩ := (hat.confined ho).idle ht
      exact hat.idleOverZero ho hk hpending

/-- A loop that is entered, counts down and is left. -/
theorem zero_behind_close_countdown :
    let device : Device := ⟨.blank 1 Nat.one_pos, .ofBytes [], {}⟩
    let commands := Dialect.builtin.commandsOf (['+', '[', '-'].map Char.toUInt8)
    let closing : Command := ⟨']'.toUInt8, .loopClose⟩
    ∃ e e', Stepped { device } commands e ∧ closing.kind = .loopClose ∧
      e.step 6 closing = some (.ok e') ∧ e'.device.tape.current = 0 := by
  intro device commands closing
  have hok : (steps 6 (commands ++ [closing]) { device }).map Outcome.fault? = some none := by
    decide +kernel
  obtain ⟨o, ho, hfault⟩ := Option.map_eq_some_iff.mp hok
  cases o with
  | fault cause e' => cases hfault
  | ok e' =>
      rw [steps_append_eq, Outcome.chain_eq_some] at ho
      cases ho with
      | @ok e _ hsteps hlast =>
          rw [steps_cons_eq, Outcome.chain_eq_some] at hlast
          cases hlast with
          | @ok e₁ _ hstep hnil =>
              obtain rfl := Outcome.ok.inj (Option.some.inj hnil)
              have hstepped : Stepped { device } commands e := Stepped.steps .fresh hsteps
              exact ⟨e, e₁, hstepped, rfl, hstep, zero_behind_close hstepped rfl hstep⟩

end Engine

end TapeScript
