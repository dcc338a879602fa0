import TapeScript.Proofs.Engine.Moments
import TapeScript.Proofs.Engine.Turns
import TapeScript.Proofs.Skeleton.Nesting

/-! # Scanning, pending commands and ways back

A loop is scanned only from its opening command on, over a zero cell and as long as it is
open. Whatever faults came before, a step takes turns among the commands that its own command
leads to, and stops for want of turns only when nothing is due. -/

namespace TapeScript

namespace Skeleton

variable {s t : Skeleton} {p id : Nat} {c : Command}

/-! ## Commands that are due -/

theorem take_eq_some (h : s.take = (some c, t)) :
    ∃ p id, s.pending = some p ∧ s.target? p = some id ∧ s.command? id = some c ∧
      t = { s with last := some id, pending := s.next? id } := by
  simp only [take] at h
  split at h
  · rename_i id hid
    obtain ⟨p, hp, ht⟩ := Option.bind_eq_some_iff.mp hid
    obtain ⟨hc, rfl⟩ := Prod.mk.inj h
    exact ⟨p, id, hp, ht, hc, rfl⟩
  · cases h

theorem Threaded.le_target? (h : s.Threaded) (ht : s.target? p = some id) : p ≤ id := by
  simp only [target?] at ht
  split at ht
  · exact Nat.le_of_eq (Option.some.inj ht)
  · rename_i first parent he
    have hf : s.first? p = some id := by simp only [first?, he, ht]
    exact Nat.le_of_lt (h.first_gt hf).1
  · cases ht

/-- Every recorded node leads to a command: its own, or the one that opens the loop. -/
theorem Chained.exists_target? (h : s.Chained) (hp : p < s.size) :
    ∃ id c, s.target? p = some id ∧ s.command? id = some c := by
  have hn : s.nodes[p]? = some s.nodes[p] := Array.getElem?_eq_getElem hp
  cases he : s.nodes[p].entry with
  | op c l =>
      have hentry : s.entry? p = some (.op c l) := he ▸ entry?_of_getElem? hn
      exact ⟨p, c, by simp only [target?, hentry], by simp only [command?, hentry]⟩
  | loop first parent =>
      have hentry : s.entry? p = some (.loop first parent) := he ▸ entry?_of_getElem? hn
      have hloop : s.IsLoop p := ⟨first, parent, hentry⟩
      obtain ⟨c, hc, -⟩ := (h.opensAt hloop).command
      exact ⟨p + 1, c, hloop.target?.trans (h.opensAt hloop).first, hc⟩

theorem Chained.pending_of_take (h : s.Chained) (hp : s.Placed) (ht : s.take = (none, t)) :
    s.pending = none ∧ t = s := by
  cases hpending : s.pending with
  | none =>
      simp only [take, hpending, Option.bind_none, Prod.mk.injEq, true_and] at ht
      exact ⟨rfl, ht.symm⟩
  | some p =>
      obtain ⟨id, c, htarget, hc⟩ := h.exists_target? (hp.pending_lt hpending)
      simp [take, hpending, htarget, hc] at ht

theorem scanned_of_sealLoop {l : Nat} (h : s.sealLoop.state.scanned = some l) :
    s.scanned = some l := by
  obtain ⟨nodes, pending, last, openLoops, tail, scanned, skipped⟩ := s
  cases openLoops with
  | nil => exact h
  | cons loop outer =>
      simp only [sealLoop] at h
      split at h
      · cases h
      · exact h

/-- Recording starts no scan. -/
theorem scanned_of_record {l : Nat} (h : (s.record c).state.scanned = some l) :
    s.scanned = some l := by
  simp only [record] at h
  cases hk : c.kind with
  | simple action => rwa [hk] at h
  | loopOpen => rwa [hk] at h
  | loopClose =>
      rw [hk] at h
      exact scanned_of_sealLoop (s := s.push c) h

/-- The command that ends a scan is not due. -/
theorem pending_of_scan_ended (hs : s.scanned ≠ none)
    (hends : (s.record c).state.scanned = none) : (s.record c).state.pending = none := by
  by_cases hc : c.kind = .loopClose → s.scanned ≠ s.innermost
  · exact absurd ((scanned_record hc).symm.trans hends) hs
  · obtain ⟨hk, hi⟩ := Classical.not_imp.mp hc
    rw [record, hk]
    exact (sealLoop_scanned (s := s.push c) (not_not.mp hi) hs).2

/-! ## Loops that are left -/

/-- A closed loop goes on behind its opening command. -/
theorem Linked.next?_opening_ne (h : s.Linked) {l : Nat} (hl : s.IsLoop l)
    (hopen : l ∉ s.openLoops) : s.next? (l + 1) ≠ none := by
  intro hn
  obtain ⟨id, c, hparent, hc, hk⟩ := h.closed hl hopen
  obtain ⟨o, ho, hkind⟩ := (h.opensAt hl).command
  have hleads := (h.endsWithClose hc hk hparent).leads (l + 1) (h.opensAt hl).parent
  obtain rfl := hleads.eq_of_next_eq_none hn
  obtain rfl := Option.some.inj (hc.symm.trans ho)
  rw [hkind] at hk
  cases hk

theorem leaveLoop_of_last {l : Nat} (hlast : s.last = some id) (hown : s.ownLoop? id = some l) :
    s.leaveLoop = { s with
      pending := s.next? l
      scanned := if (s.next? id).isNone then some l else s.scanned } := by
  simp only [leaveLoop, hlast, hown]

theorem repeatLoop_of_last (hlast : s.last = some id) :
    s.repeatLoop = { s with pending := some (s.chainStart id) } := by
  simp only [repeatLoop, hlast]

end Skeleton

namespace Engine

variable {c : Command} {e e' : Engine} {f l : Nat}

/-- The scanned loop is open and leads nowhere, its opening command was executed last, and the
current cell is zero. -/
structure ScansAt (e : Engine) (l : Nat) : Prop where
  isOpen : l ∈ e.skeleton.openLoops
  last : ∃ id, e.skeleton.last = some id ∧ e.skeleton.first? l = some id
  next : e.skeleton.next? l = none
  zero : e.device.tape.current = 0

/-- What holds between two steps, whatever their results. -/
structure Ordered (e : Engine) : Prop where
  linked : e.skeleton.Linked
  placed : e.skeleton.Placed
  nested : e.skeleton.Nested
  scans : ∀ ⦃l⦄, e.skeleton.scanned = some l → e.ScansAt l

theorem Ordered.fresh (device : Device) (limit : Option Nat) : Ordered { device, limit } :=
  ⟨.empty, .empty, .empty, by rintro l ⟨⟩⟩

/-! ## Recording -/

theorem ScansAt.push (h : e.ScansAt l) (ht : e.skeleton.Threaded) (c : Command) :
    ScansAt { e with skeleton := e.skeleton.push c } l := by
  obtain ⟨id, hlast, hfirst⟩ := h.last
  refine ⟨h.isOpen, ⟨id, hlast, ?_⟩, ?_, h.zero⟩
  · refine (Skeleton.first?_push_of_ne c (.inr ?_)).trans hfirst
    rw [hfirst]
    exact Option.some_ne_none id
  · exact (Skeleton.grows_push c e.skeleton).open_next ht h.isOpen

theorem ScansAt.beginLoop (h : e.ScansAt l) (ht : e.skeleton.Threaded) :
    ScansAt { e with skeleton := e.skeleton.beginLoop } l := by
  obtain ⟨id, hlast, hfirst⟩ := h.last
  refine ⟨List.mem_cons_of_mem _ h.isOpen, ⟨id, hlast, ?_⟩, ?_, h.zero⟩
  · exact (Skeleton.first?_beginLoop e.skeleton l).trans hfirst
  · exact (Skeleton.grows_beginLoop e.skeleton).open_next ht h.isOpen

/-- A scan goes on until its own loop is sealed. -/
theorem ScansAt.sealLoop (h : e.ScansAt l)
    (hs : e.skeleton.sealLoop.state.scanned = some l) :
    ScansAt { e with skeleton := e.skeleton.sealLoop.state } l := by
  obtain ⟨hopen, hlast, hnext, hzero⟩ := h
  obtain ⟨device, ⟨nodes, pending, last, openLoops, tail, scanned, skipped⟩, limit, executed⟩ := e
  cases openLoops with
  | nil => exact ⟨hopen, hlast, hnext, hzero⟩
  | cons loop outer =>
      simp only [Skeleton.sealLoop] at hs ⊢
      split at hs <;> rename_i hc
      · cases hs
      · rw [if_neg hc]
        have hne : l ≠ loop := by
          rintro rfl
          exact hc hs
        exact ⟨(List.mem_cons.mp hopen).resolve_left hne, hlast, hnext, hzero⟩

theorem ScansAt.record (h : e.ScansAt l) (ht : e.skeleton.Threaded) (c : Command)
    (hs : (e.skeleton.record c).state.scanned = some l) : (e.record c).state.ScansAt l := by
  rw [state_record]
  simp only [Skeleton.record] at hs ⊢
  cases hk : c.kind with
  | simple action => exact h.push ht c
  | loopOpen => exact (h.beginLoop ht).push ht.beginLoop c
  | loopClose =>
      rw [hk] at hs
      exact (h.push ht c).sealLoop hs

theorem Ordered.record (h : e.Ordered) (c : Command) : (e.record c).state.Ordered := by
  have ht := h.linked.toThreaded
  refine ⟨?_, ?_, ?_, fun l hl => ?_⟩
  · exact skeleton_record c e ▸ h.linked.record c
  · exact skeleton_record c e ▸ h.placed.record c
  · exact skeleton_record c e ▸ h.nested.record ht c
  · rw [skeleton_record] at hl
    exact (h.scans (Skeleton.scanned_of_record hl)).record ht c hl

/-! ## Turns -/

/-- A turn of a step begins, and what is due lies where its command leads to. -/
structure Confined (f : Nat) (e : Engine) : Prop extends Ordered e where
  confines : e.skeleton.Confines f
  le_pending : ∀ ⦃p⦄, e.skeleton.pending = some p → f ≤ p
  idle_of_scanned : e.skeleton.scanned ≠ none → e.skeleton.pending = none

/-- A close that was recorded well had a loop to close. -/
theorem openLoops_of_record_eq_ok (h : e.record c = .ok e') (hk : c.kind = .loopClose) :
    e.skeleton.openLoops ≠ [] := by
  intro ho
  have hfault : (e.record c).fault? = (e.skeleton.record c).fault? := Outcome.fault?_map _ _
  rw [h, Skeleton.record, hk] at hfault
  simp [Skeleton.fault?_sealLoop, ho] at hfault

theorem Confined.of_record (h : e.Ordered) (hr : e.record c = .ok e')
    (hs : e'.skeleton.scanned = none) : Confined (e.skeleton.ground c) e' := by
  have ht := h.linked.toThreaded
  have hordered := h.record c
  rw [hr] at hordered
  have hskeleton : (e.skeleton.record c).state = e'.skeleton := by
    rw [← skeleton_record, hr, Outcome.state_ok]
  have hopen := openLoops_of_record_eq_ok (c := c) hr
  refine ⟨hordered, ?_, ?_, fun hne => absurd hs hne⟩
  · exact hskeleton ▸ Skeleton.confines_record h.linked h.nested hopen
  · intro p hp
    rw [← hskeleton] at hp
    by_cases hc : c.kind = .loopClose → e.skeleton.scanned ≠ e.skeleton.innermost
    · rw [Skeleton.pending_record hc, Option.some.injEq] at hp
      exact hp ▸ Skeleton.ground_le ht c
    · obtain ⟨hk, hi⟩ := Classical.not_imp.mp hc
      have hscanned : e.skeleton.scanned ≠ none := by
        rw [not_not.mp hi, Skeleton.innermost, ne_eq, List.head?_eq_none_iff]
        exact hopen hk
      rw [Skeleton.pending_of_scan_ended hscanned (hskeleton ▸ hs)] at hp
      cases hp

/-- The command that a turn takes stands on the node `id`. -/
structure Takes (f : Nat) (e : Engine) (c : Command) (s : Skeleton) (id : Nat) : Prop where
  le_id : f ≤ id
  command : e.skeleton.command? id = some c
  scanned : e.skeleton.scanned = none
  skeleton : s = { e.skeleton with last := some id, pending := e.skeleton.next? id }

/-- An opening command is the first of its loop's body, and the last one while the loop is
open. -/
structure OpensLoop (s : Skeleton) (id l : Nat) : Prop where
  id_eq : id = l + 1
  isLoop : s.IsLoop l
  first : s.first? l = some id
  own : s.ownLoop? id = some l
  next_iff : s.next? id = none ↔ l ∈ s.openLoops

/-- A closing command that is executed belongs to a closed loop, and leads to its start. -/
structure ClosesLoop (s : Skeleton) (id l : Nat) : Prop where
  isLoop : s.IsLoop l
  own : s.ownLoop? id = some l
  notOpen : l ∉ s.openLoops
  first : s.first? l = some (s.chainStart id)

theorem OpensLoop.of_sameShape {s t : Skeleton} {id l : Nat} (h : OpensLoop t id l)
    (hs : s.SameShape t) : OpensLoop s id l := by
  refine ⟨h.id_eq, (hs.isLoop l).mpr h.isLoop, (hs.first? l).trans h.first,
    (hs.ownLoop? id).trans h.own, ?_⟩
  rw [hs.next?, hs.openLoops]
  exact h.next_iff

theorem ClosesLoop.of_sameShape {s t : Skeleton} {id l : Nat} (h : ClosesLoop t id l)
    (hs : s.SameShape t) : ClosesLoop s id l := by
  refine ⟨(hs.isLoop l).mpr h.isLoop, (hs.ownLoop? id).trans h.own, ?_, ?_⟩
  · rw [hs.openLoops]
    exact h.notOpen
  · rw [hs.first?, hs.chainStart]
    exact h.first

namespace Takes

variable {s : Skeleton} {id : Nat}

theorem sameShape (ht : Takes f e c s id) : s.SameShape e.skeleton := by
  obtain ⟨-, -, -, rfl⟩ := ht
  exact ⟨rfl, rfl, rfl⟩

theorem last (ht : Takes f e c s id) : s.last = some id := by
  obtain ⟨-, -, -, rfl⟩ := ht
  rfl

theorem opensLoop (ht : Takes f e c s id) (h : Confined f e) (hk : c.kind = .loopOpen) :
    ∃ l, OpensLoop e.skeleton id l := by
  obtain ⟨l, hid, hparent⟩ := h.nested.opener ht.command hk
  have hloop := h.linked.parent_isLoop hparent
  have hopens := h.linked.opensAt hloop
  refine ⟨l, hid, hloop, hid ▸ hopens.first, ?_, ?_⟩
  · rw [Skeleton.ownLoop?_of_command? ht.command, hparent]
  · subst hid
    constructor
    · intro hn
      by_contra hopen
      exact h.linked.next?_opening_ne hloop hopen hn
    · exact h.confines.opens ht.le_id

theorem closesLoop (ht : Takes f e c s id) (h : Confined f e) (hk : c.kind = .loopClose) :
    ∃ l, f ≤ l + 1 ∧ ClosesLoop e.skeleton id l := by
  obtain ⟨l, hle, hparent⟩ := h.confines.closes ht.le_id ht.command hk
  have hloop := h.linked.parent_isLoop hparent
  refine ⟨l, hle, hloop, ?_, (h.linked.close_last ht.command hk hparent).2, ?_⟩
  · rw [Skeleton.ownLoop?_of_command? ht.command, hparent]
  · rw [h.linked.chainStart_eq (Skeleton.lt_size_of_parent? hparent), hparent]
    exact (h.linked.opensAt hloop).first

end Takes

namespace Confined

variable {s : Skeleton}

theorem takes (h : Confined f e) (ht : e.skeleton.take = (some c, s)) : ∃ id, Takes f e c s id := by
  obtain ⟨p, id, hp, htarget, hc, hs⟩ := Skeleton.take_eq_some ht
  refine ⟨id, ?_, hc, ?_, hs⟩
  · exact Nat.le_trans (h.le_pending hp) (h.linked.le_target? htarget)
  · by_contra hne
    rw [h.idle_of_scanned hne] at hp
    cases hp

/-- What is due after a command was taken lies behind it. -/
theorem taken (h : Confined f e) (ht : e.skeleton.take = (some c, s)) (device : Device)
    (limit : Option Nat) (executed : Nat) : Confined f ⟨device, s, limit, executed⟩ := by
  obtain ⟨id, htakes⟩ := h.takes ht
  have hshape := htakes.sameShape
  have hplaced := h.placed.take h.linked.toThreaded
  rw [ht] at hplaced
  have hscanned : s.scanned = none := by
    rw [htakes.skeleton]
    exact htakes.scanned
  have hordered : Ordered ⟨device, s, limit, executed⟩ := by
    refine ⟨h.linked.of_sameShape hshape, hplaced, h.nested.of_sameShape hshape, ?_⟩
    intro l hl
    rw [hscanned] at hl
    cases hl
  refine ⟨hordered, h.confines.of_sameShape hshape, ?_, fun hne => absurd hscanned hne⟩
  intro p hp
  rw [htakes.skeleton] at hp
  exact Nat.le_trans htakes.le_id (Nat.le_of_lt (h.linked.next_lt hp))

/-- Leaving a loop over a zero cell leads behind the loop, or into a scan if it is open. -/
theorem left (h : Confined f e) (ht : e.skeleton.take = (some c, s)) (hk : c.kind = .loopOpen)
    {device : Device} (hz : device.tape.current = 0) (limit : Option Nat) (executed : Nat) :
    Confined f ⟨device, s.leaveLoop, limit, executed⟩ := by
  obtain ⟨id, htakes⟩ := h.takes ht
  obtain ⟨l, hopens⟩ := htakes.opensLoop h hk
  have htaken := h.taken ht device limit executed
  have hshape := Skeleton.sameShape_leaveLoop s
  have hleave := Skeleton.leaveLoop_of_last htakes.last
    ((htakes.sameShape.ownLoop? id).trans hopens.own)
  have hscanned (l' : Nat) (hl' : s.leaveLoop.scanned = some l') :
      l' = l ∧ l ∈ e.skeleton.openLoops := by
    rw [hleave] at hl'
    dsimp only at hl'
    split at hl' <;> rename_i hn
    · rw [Option.isNone_iff_eq_none, htakes.sameShape.next?, hopens.next_iff] at hn
      exact ⟨(Option.some.inj hl').symm, hn⟩
    · rw [htakes.skeleton, htakes.scanned] at hl'
      cases hl'
  have hpending : s.leaveLoop.pending = e.skeleton.next? l := by
    rw [hleave]
    exact htakes.sameShape.next? l
  have hordered : Ordered ⟨device, s.leaveLoop, limit, executed⟩ := by
    refine ⟨htaken.linked.of_sameShape hshape, htaken.placed.leaveLoop htaken.linked.toThreaded,
      htaken.nested.of_sameShape hshape, ?_⟩
    intro l' hl'
    obtain ⟨rfl, hopen⟩ := hscanned l' hl'
    have hsame := hshape.trans htakes.sameShape
    refine ⟨hsame.openLoops ▸ hopen, ⟨id, ?_, ?_⟩, ?_, hz⟩
    · rw [hleave]
      exact htakes.last
    · exact (hsame.first? l').trans hopens.first
    · exact (hsame.next? l').trans (h.linked.open_next hopen)
  refine ⟨hordered, htaken.confines.of_sameShape hshape, ?_, ?_⟩
  · intro p hp
    dsimp only at hp
    rw [hpending] at hp
    have hle : f ≤ l + 1 := hopens.id_eq ▸ htakes.le_id
    have hne : l + 1 ≠ f := by
      intro heq
      rw [h.confines.leaves heq hopens.isLoop] at hp
      cases hp
    have hlt := h.linked.next_lt hp
    omega
  · intro hne
    obtain ⟨l', hl'⟩ := Option.ne_none_iff_exists'.mp hne
    exact hpending.trans (h.linked.open_next (hscanned l' hl').2)

/-- Going back leads to the start of the body that the command closes. -/
theorem repeated (h : Confined f e) (ht : e.skeleton.take = (some c, s))
    (hk : c.kind = .loopClose) (device : Device) (limit : Option Nat) (executed : Nat) :
    Confined f ⟨device, s.repeatLoop, limit, executed⟩ := by
  obtain ⟨id, htakes⟩ := h.takes ht
  obtain ⟨l, hle, hcloses⟩ := htakes.closesLoop h hk
  have htaken := h.taken ht device limit executed
  have hshape := Skeleton.sameShape_repeatLoop s
  have hscanned : s.repeatLoop.scanned = none := by
    rw [Skeleton.repeatLoop_of_last htakes.last, htakes.skeleton]
    exact htakes.scanned
  have hordered : Ordered ⟨device, s.repeatLoop, limit, executed⟩ := by
    refine ⟨htaken.linked.of_sameShape hshape, htaken.placed.repeatLoop,
      htaken.nested.of_sameShape hshape, ?_⟩
    intro l' hl'
    rw [hscanned] at hl'
    cases hl'
  refine ⟨hordered, htaken.confines.of_sameShape hshape, ?_, fun hne => absurd hscanned hne⟩
  intro p hp
  have hfirst := hcloses.first
  rw [(h.linked.opensAt hcloses.isLoop).first, Option.some.injEq] at hfirst
  simp only [Skeleton.repeatLoop_of_last htakes.last, Option.some.injEq,
    htakes.sameShape.chainStart] at hp
  omega

theorem passed (h : Confined f e) (ht : e.skeleton.take = (some c, s)) (device : Device)
    (limit : Option Nat) (executed : Nat) :
    Confined f ⟨device, passed c device.tape s, limit, executed⟩ := by
  cases hk : c.kind with
  | simple action =>
      simp only [Engine.passed, hk]
      exact h.taken ht device limit executed
  | loopOpen =>
      simp only [Engine.passed, hk]
      by_cases hz : device.tape.current = 0
      · rw [if_pos hz]
        exact h.left ht hk hz limit executed
      · rw [if_neg hz]
        exact h.taken ht device limit executed
  | loopClose =>
      simp only [Engine.passed, hk]
      exact h.repeated ht hk device limit executed

theorem ran (h : Confined f e) (ht : e.turn = .ran e') : Confined f e' := by
  rcases htake : e.skeleton.take with ⟨_ | c, s⟩
  · rw [turn_idle htake] at ht
    cases ht
  · rw [turn_eq_act htake] at ht
    cases ha : e.progress.act e.limit c with
    | fault cause p =>
        rw [ha] at ht
        cases ht
    | ok p =>
        rw [ha] at ht
        obtain rfl := Turn.ran.inj ht
        exact h.passed htake p.device e.limit p.executed

/-- Every turn leaves order behind, also if it is stopped. -/
theorem ordered_turn (h : Confined f e) : e.turn.engine.Ordered := by
  rcases htake : e.skeleton.take with ⟨_ | c, s⟩
  · obtain ⟨-, rfl⟩ := h.linked.pending_of_take h.placed htake
    rw [turn_idle htake]
    exact h.toOrdered
  · rw [turn_eq_act htake]
    cases e.progress.act e.limit c with
    | fault cause p => exact (h.taken htake p.device e.limit p.executed).toOrdered
    | ok p => exact (h.passed htake p.device e.limit p.executed).toOrdered

theorem idle (h : Confined f e) (ht : e.turn = .idle e') :
    e' = e ∧ e.skeleton.pending = none := by
  rcases htake : e.skeleton.take with ⟨_ | c, s⟩
  · obtain ⟨hpending, rfl⟩ := h.linked.pending_of_take h.placed htake
    rw [turn_idle htake] at ht
    exact ⟨(Turn.idle.inj ht).symm, hpending⟩
  · rw [turn_eq_act htake] at ht
    cases ha : e.progress.act e.limit c <;> rw [ha] at ht <;> cases ht

end Confined

/-! ## Steps after any others -/

theorem AtTurn.confined (h : AtTurn c e e') (ho : e.Ordered) :
    Confined (e.skeleton.ground c) e' :=
  h.induction (fun _ hr hs => .of_record ho hr hs) fun _ _ hconfined ht => hconfined.ran ht

theorem StepEnds.ordered {o : Outcome Engine} (h : StepEnds c e o) (ho : e.Ordered) :
    o.state.Ordered := by
  have hrecord := ho.record c
  cases h with
  | refused hr =>
      rw [hr] at hrecord
      exact hrecord
  | scanning hr _ =>
      rw [hr] at hrecord
      exact hrecord
  | idle hat ht =>
      have hturn := (hat.confined ho).ordered_turn
      rw [ht] at hturn
      exact hturn
  | stopped hat ht =>
      have hturn := (hat.confined ho).ordered_turn
      rw [ht] at hturn
      exact hturn

theorem Stepped.ordered {device : Device} {limit : Option Nat} {commands : List Command}
    (h : Stepped { device, limit } commands e) : e.Ordered := by
  induction h with
  | fresh => exact .fresh device limit
  | step _ hs ih => exact (stepEnds hs).ordered ih

theorem Moment.scansAt (h : Moment c e e') (ho : e.Ordered)
    (hl : e'.skeleton.scanned = some l) : e'.ScansAt l := by
  have ht := ho.linked.toThreaded
  cases h with
  | begun _ => exact (ho.scans hl).beginLoop ht
  | appended _ => exact (ho.scans hl).push ht c
  | recorded => exact (ho.record c).scans hl
  | @taken e₁ hat =>
      have hconfined := hat.confined ho
      rcases htake : e₁.skeleton.take with ⟨_ | d, s⟩
      · obtain ⟨-, rfl⟩ := hconfined.linked.pending_of_take hconfined.placed htake
        rw [htake] at hl
        exact hconfined.scans hl
      · rw [htake] at hl
        exact (hconfined.taken htake e₁.device e₁.limit e₁.executed).scans hl
  | turned hat => exact (hat.confined ho).ordered_turn.scans hl

/-- The command is executed, and the skeleton stands on it. -/
def Executes (e : Engine) (c : Command) (s : Skeleton) : Prop :=
  e.skeleton.take = (some c, s) ∧ exhausted? e.limit e.executed = none

/-- Scans, pending commands and ways back are in order at all times. -/
structure Disciplined (fresh : Engine) : Prop where
  scanning : ∀ ⦃e l⦄, Appears fresh e → e.skeleton.scanned = some l → e.ScansAt l
  settled : ∀ ⦃rest c fuel e⦄, Rests fresh rest → rest.step fuel c = some (.ok e) →
    e.skeleton.isScanning = true ∨ e.skeleton.isDue = false
  enters : ∀ ⦃e l⦄, TurnsAt fresh e → e.skeleton.pending = some l → e.skeleton.IsLoop l →
    ∃ id, e.skeleton.first? l = some id
  idle : ∀ ⦃e e'⦄, TurnsAt fresh e → e.turn = .idle e' → e'.skeleton.isDue = false
  closing : ∀ ⦃e c s⦄, TurnsAt fresh e → e.Executes c s → c.kind = .loopClose →
    ∃ id l, s.last = some id ∧ s.command? id = some c ∧ ClosesLoop s id l
  opening : ∀ ⦃e c s⦄, TurnsAt fresh e → e.Executes c s → c.kind = .loopOpen →
    ∃ id l, s.last = some id ∧ s.command? id = some c ∧ OpensLoop s id l ∧
      s.leaveLoop.scanned = if l ∈ s.openLoops then some l else none

theorem TurnsAt.confined {device : Device} {limit : Option Nat}
    (h : TurnsAt { device, limit } e) : ∃ f, Confined f e := by
  obtain ⟨rest, c, ⟨commands, hrest⟩, hat⟩ := h
  exact ⟨_, hat.confined hrest.ordered⟩

theorem disciplined (device : Device) (limit : Option Nat) : Disciplined { device, limit } where
  scanning := by
    rintro e l (⟨commands, h⟩ | ⟨rest, c, ⟨commands, hrest⟩, hmoment⟩) hl
    · exact h.ordered.scans hl
    · exact hmoment.scansAt hrest.ordered hl
  settled := by
    rintro rest c fuel e ⟨commands, hrest⟩ hs
    cases stepEnds hs with
    | scanning _ hscan => exact .inl (Option.isSome_iff_ne_none.mpr hscan)
    | idle hat ht =>
        obtain ⟨rfl, hpending⟩ := (hat.confined hrest.ordered).idle ht
        exact .inr (by rw [Skeleton.isDue, hpending, Option.isSome_none])
  enters := by
    intro e l hat _ hl
    obtain ⟨f, hconfined⟩ := hat.confined
    exact ⟨l + 1, (hconfined.linked.opensAt hl).first⟩
  idle := by
    intro e e' hat ht
    obtain ⟨f, hconfined⟩ := hat.confined
    obtain ⟨rfl, hpending⟩ := hconfined.idle ht
    rw [Skeleton.isDue, hpending, Option.isSome_none]
  closing := by
    intro e c s hat hexecutes hk
    obtain ⟨f, hconfined⟩ := hat.confined
    obtain ⟨id, htakes⟩ := hconfined.takes hexecutes.1
    obtain ⟨l, -, hcloses⟩ := htakes.closesLoop hconfined hk
    have hshape := htakes.sameShape
    exact ⟨id, l, htakes.last, (hshape.command? id).trans htakes.command,
      hcloses.of_sameShape hshape⟩
  opening := by
    intro e c s hat hexecutes hk
    obtain ⟨f, hconfined⟩ := hat.confined
    obtain ⟨id, htakes⟩ := hconfined.takes hexecutes.1
    obtain ⟨l, hopens⟩ := htakes.opensLoop hconfined hk
    have hshape := htakes.sameShape
    have hopens' := hopens.of_sameShape hshape
    refine ⟨id, l, htakes.last, (hshape.command? id).trans htakes.command, hopens', ?_⟩
    rw [Skeleton.leaveLoop_of_last htakes.last hopens'.own]
    simp only [Option.isNone_iff_eq_none, hopens'.next_iff]
    rw [htakes.skeleton]
    simp only [htakes.scanned]

/-- A loop over a zero cell is scanned behind its opening command. -/
theorem disciplined_left_loop :
    ∃ e, Rests { device := ⟨.blank 1 Nat.one_pos, .ofBytes [], {}⟩ } e ∧
      e.skeleton.scanned = some 0 ∧ e.ScansAt 0 := by
  have hfresh : Stepped { device := ⟨.blank 1 Nat.one_pos, .ofBytes [], {}⟩ } [] _ := .fresh
  have hopen := @Stepped.step _ _ _ 2 ⟨'['.toUInt8, .loopOpen⟩ _ hfresh rfl
  exact ⟨_, ⟨_, hopen⟩, rfl, (disciplined _ none).scanning (.inl ⟨_, hopen⟩) rfl⟩

end Engine

end TapeScript
