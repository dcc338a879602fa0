import TapeScript.Script.Basic
import TapeScript.Proofs.Balance

/-! # Trees of balanced commands -/

namespace TapeScript.Script

open TapeScript.Bracket

/-- Acts are no brackets, and loops lie between an opening and a closing command. -/
inductive Proper : Script → Prop where
  | done : Proper done
  | act {command : Command} {rest : Script} {action : Action}
      (kind : command.kind = .simple action) (hrest : Proper rest) : Proper (act command rest)
  | loop {opening closing : Command} {body rest : Script} (hopening : opening.kind = .loopOpen)
      (hclosing : closing.kind = .loopClose) (hbody : Proper body) (hrest : Proper rest) :
      Proper (loop opening body closing rest)

def length (t : Script) : Nat := t.toCommands.length

@[simp] theorem length_done : done.length = 0 := rfl

@[simp] theorem length_act (c : Command) (rest : Script) :
    (act c rest).length = rest.length + 1 := rfl

@[simp] theorem length_loop (opening closing : Command) (body rest : Script) :
    (loop opening body closing rest).length = body.length + 1 + rest.length + 1 := by
  simp only [length, toCommands, List.length_cons, List.length_append]
  omega

/-! ## The first commands of a loop and what follows it -/

section Loop

variable {body rest : Script} {k : Nat}

/-- The loop has ended among the first commands. -/
theorem take_loop_of_lt (c : Command) (h : body.length < k) :
    (body.toCommands ++ c :: rest.toCommands).take k =
      body.toCommands ++ c :: rest.toCommands.take (k - (body.length + 1)) := by
  have hlength : k - body.toCommands.length = k - (body.length + 1) + 1 := by
    simp only [length] at h ⊢
    omega
  rw [List.take_append, List.take_of_length_le (Nat.le_of_lt h), hlength, List.take_succ_cons]

theorem take_loop_of_le (c : Command) (h : k ≤ body.length) :
    (body.toCommands ++ c :: rest.toCommands).take k = body.toCommands.take k :=
  List.take_append_of_le_length h

theorem append_loop (pre : List Command) (o c : Command) (body rest : Script) :
    pre ++ (loop o body c rest).toCommands =
      pre ++ o :: body.toCommands ++ [c] ++ rest.toCommands := by
  simp [toCommands]

end Loop

/-! ## Trees and balance -/

theorem Proper.depthFrom? {t : Script} (h : t.Proper) (d : Nat) :
    Bracket.depthFrom? d (ofCommands t.toCommands) = some d := by
  induction h generalizing d with
  | done => rfl
  | act kind _ ih => simpa only [toCommands, ofCommands_cons, kind] using ih d
  | loop hopening hclosing _ _ ihbody ihrest =>
      simp only [toCommands, ofCommands_cons, ofCommands_append, hopening, hclosing,
        Bracket.depthFrom?, depthFrom?_append, ihbody, Option.bind_some]
      exact ihrest d

theorem Proper.balanced {t : Script} (h : t.Proper) : Bracket.Balanced (ofCommands t.toCommands) :=
  h.depthFrom? 0

/-- The commands of the trees that follow unopened closes. -/
def closedCommands (outer : List (Command × Script)) : List Command :=
  outer.flatMap fun segment => segment.1 :: segment.2.toCommands

/-- What one pass from the end finds is a tree for every segment between unopened closes. -/
structure Segmented (commands : List Command) (here : Script)
    (outer : List (Command × Script)) : Prop where
  commands_eq : commands = here.toCommands ++ closedCommands outer
  here_proper : here.Proper
  outer_proper : ∀ segment ∈ outer, segment.1.kind = .loopClose ∧ segment.2.Proper

theorem segmented_of_segments {commands : List Command} {here : Script}
    {outer : List (Command × Script)} (h : segments commands = some (here, outer)) :
    Segmented commands here outer := by
  induction commands generalizing here outer with
  | nil =>
      obtain ⟨rfl, rfl⟩ := Prod.mk.inj (Option.some.inj h)
      exact ⟨rfl, .done, by simp⟩
  | cons c commands ih =>
      simp only [segments] at h
      cases hs : segments commands with
      | none => rw [hs] at h; cases h
      | some found =>
          obtain ⟨here', outer'⟩ := found
          obtain ⟨rfl, hhere, houter⟩ := ih hs
          rw [hs] at h
          cases hk : c.kind with
          | simple action =>
              simp only [hk, Option.some.injEq, Prod.mk.injEq] at h
              obtain ⟨rfl, rfl⟩ := h
              exact ⟨rfl, .act hk hhere, houter⟩
          | loopClose =>
              simp only [hk, Option.some.injEq, Prod.mk.injEq] at h
              obtain ⟨rfl, rfl⟩ := h
              refine ⟨rfl, .done, ?_⟩
              intro segment hm
              rcases List.mem_cons.mp hm with rfl | hm
              · exact ⟨hk, hhere⟩
              · exact houter segment hm
          | loopOpen =>
              cases outer' with
              | nil => simp [hk] at h
              | cons segment outer' =>
                  obtain ⟨closing, rest⟩ := segment
                  simp only [hk, Option.some.injEq, Prod.mk.injEq] at h
                  obtain ⟨rfl, rfl⟩ := h
                  have hlast := houter _ List.mem_cons_self
                  refine ⟨?_, .loop hk hlast.1 hhere hlast.2, ?_⟩
                  · simp [closedCommands, toCommands]
                  · exact fun segment hm => houter segment (List.mem_cons_of_mem _ hm)

/-- The pass succeeds as soon as some depth before the commands suits them. -/
theorem segments_of_depthFrom? {commands : List Command} {d : Nat}
    (h : Bracket.depthFrom? d (ofCommands commands) = some 0) :
    ∃ here outer, segments commands = some (here, outer) ∧ outer.length = d := by
  induction commands generalizing d with
  | nil =>
      obtain rfl := Option.some.inj h
      exact ⟨done, [], rfl, rfl⟩
  | cons c commands ih =>
      rw [ofCommands_cons] at h
      cases hk : c.kind with
      | simple action =>
          simp only [hk] at h
          obtain ⟨here, outer, hs, hlength⟩ := ih h
          exact ⟨act c here, outer, by simp only [segments, hs, hk], hlength⟩
      | loopOpen =>
          simp only [hk] at h
          obtain ⟨here, outer, hs, hlength⟩ := ih (d := d + 1) h
          cases outer with
          | nil => cases hlength
          | cons segment outer =>
              obtain ⟨closing, rest⟩ := segment
              exact ⟨loop c here closing rest, outer, by simp only [segments, hs, hk],
                Nat.succ.inj hlength⟩
      | loopClose =>
          simp only [hk] at h
          cases d with
          | zero => cases h
          | succ d =>
              obtain ⟨here, outer, hs, hlength⟩ := ih (d := d) h
              exact ⟨done, (c, here) :: outer, by simp only [segments, hs, hk],
                congrArg Nat.succ hlength⟩

/-- Balanced commands are the commands of a proper tree. -/
theorem exists_ofCommands? {commands : List Command} (h : Bracket.Balanced (ofCommands commands)) :
    ∃ t, ofCommands? commands = some t ∧ t.toCommands = commands ∧ t.Proper := by
  obtain ⟨here, outer, hs, hlength⟩ := segments_of_depthFrom? h
  obtain rfl := List.length_eq_zero_iff.mp hlength
  obtain ⟨heq, hproper, -⟩ := segmented_of_segments hs
  refine ⟨here, by simp only [ofCommands?, hs], ?_, hproper⟩
  rw [heq, closedCommands, List.flatMap_nil, List.append_nil]

end TapeScript.Script
