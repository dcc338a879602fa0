import TapeScript.Proofs.TwoPass.Positions
import Mathlib.Data.List.Basic

/-! # Partners

A bracket is found with its partner where the depth behind it is left, or was reached, again.
Between the two the text is balanced, so no two pairs overlap. -/

namespace TapeScript

namespace Bracket

variable {bytes before inside after : List UInt8} {byte o c : UInt8} {d k : Nat}

theorem ofByte?_eq_opening_iff : ofByte? byte = some opening ↔ byte = '['.toUInt8 := by
  unfold ofByte?
  split
  · simp_all
  · split <;> simp_all

theorem ofByte?_eq_closing_iff : ofByte? byte = some closing ↔ byte = ']'.toUInt8 := by
  unfold ofByte?
  split
  · rename_i h
    rw [h]
    decide
  · split <;> simp_all

/-! ## Texts in brackets -/

theorem depthFrom?_concat (bytes : List UInt8) (byte : UInt8) :
    depthFrom? d (ofBytes (bytes ++ [byte])) =
      (depthFrom? d (ofBytes bytes)).bind fun e => depthFrom? e (ofByte? byte).toList := by
  have hlast : ofBytes [byte] = (ofByte? byte).toList := by
    rw [ofBytes_cons]
    cases ofByte? byte <;> rfl
  rw [ofBytes_append, depthFrom?_append, hlast]

section Enclosed

variable (ho : ofByte? o = some opening) (hc : ofByte? c = some closing)

include hc in
/-- A closing bracket behind a balanced text closes what was opened before it. -/
theorem depthFrom?_closing (hinside : Balanced (ofBytes inside)) (d : Nat) :
    depthFrom? d (ofBytes (inside ++ c :: after)) =
      depthFrom? d (closing :: ofBytes after) := by
  rw [ofBytes_append, depthFrom?_append, hinside.depthFrom?, Option.bind_some, ofBytes_cons, hc]

include ho hc in
/-- A balanced text in brackets changes no depth. -/
theorem depthFrom?_enclosed (hinside : Balanced (ofBytes inside)) (d : Nat) :
    depthFrom? d (ofBytes (o :: (inside ++ c :: after))) = depthFrom? d (ofBytes after) := by
  rw [ofBytes_cons, ho]
  exact depthFrom?_closing hc hinside (d + 1)

end Enclosed

/-- A text that goes below its depth closes a bracket that was open before it. -/
theorem exists_closing (h : depthFrom? (k + 1) (ofBytes bytes) = some d) (hd : d ≤ k) :
    ∃ inside c after, bytes = inside ++ c :: after ∧ ofByte? c = some closing ∧
      Balanced (ofBytes inside) ∧ depthFrom? k (ofBytes after) = some d := by
  induction hn : bytes.length using Nat.strongRecOn generalizing bytes k with
  | ind n ih =>
      cases bytes with
      | nil =>
          have := Option.some.inj h
          omega
      | cons byte bytes =>
          have hlt : bytes.length < n := by
            rw [← hn, List.length_cons]
            omega
          rw [ofBytes_cons] at h
          cases hb : ofByte? byte with
          | none =>
              rw [hb] at h
              obtain ⟨inside, c, after, rfl, hc, hinside, hafter⟩ := ih _ hlt h hd rfl
              refine ⟨byte :: inside, c, after, rfl, hc, ?_, hafter⟩
              rw [ofBytes_cons, hb]
              exact hinside
          | some side =>
              rw [hb] at h
              cases side with
              | closing => exact ⟨[], byte, bytes, rfl, hb, rfl, h⟩
              | opening =>
                  -- the bracket opened here is closed first, and then the one that was open
                  obtain ⟨inner, c, behind, rfl, hc, hinner, hbehind⟩ :=
                    ih _ hlt h (Nat.le_succ_of_le hd) rfl
                  have hlt' : behind.length < n := by
                    rw [List.length_append, List.length_cons] at hlt
                    omega
                  obtain ⟨inside, c', after, rfl, hc', hinside, hafter⟩ :=
                    ih _ hlt' hbehind hd rfl
                  refine ⟨byte :: (inner ++ c :: inside), c', after, by simp, hc', ?_, hafter⟩
                  rw [Balanced, depthFrom?_enclosed hb hc hinner]
                  exact hinside

/-- A text at some depth holds a last bracket that it leaves open. -/
theorem exists_opening (h : depthFrom? 0 (ofBytes bytes) = some (k + 1)) :
    ∃ before o inside, bytes = before ++ o :: inside ∧ ofByte? o = some opening ∧
      depthFrom? 0 (ofBytes before) = some k ∧ Balanced (ofBytes inside) := by
  induction hn : bytes.length using Nat.strongRecOn generalizing bytes k with
  | ind n ih =>
      rcases List.eq_nil_or_concat' bytes with rfl | ⟨init, byte, rfl⟩
      · cases h
      · have hlt : init.length < n := by
          rw [← hn, List.length_append, List.length_singleton]
          omega
        rw [depthFrom?_concat, Option.bind_eq_some_iff] at h
        obtain ⟨e, hinit, hlast⟩ := h
        cases hb : ofByte? byte with
        | none =>
            rw [hb] at hlast
            obtain rfl : e = k + 1 := Option.some.inj hlast
            obtain ⟨before, o, inside, rfl, ho, hbefore, hinside⟩ := ih _ hlt hinit rfl
            refine ⟨before, o, inside ++ [byte], by simp, ho, hbefore, ?_⟩
            rw [Balanced, depthFrom?_concat, hinside, hb]
            rfl
        | some side =>
            rw [hb] at hlast
            cases side with
            | opening =>
                obtain rfl : e = k := Nat.succ.inj (Option.some.inj hlast)
                exact ⟨init, byte, [], rfl, hb, hinit, rfl⟩
            | closing =>
                cases e with
                | zero => cases hlast
                | succ e =>
                    -- the bracket closed here is no longer open, so an earlier one is the last
                    obtain rfl : e = k + 1 := Option.some.inj hlast
                    obtain ⟨front, o, inner, rfl, ho, hfront, hinner⟩ := ih _ hlt hinit rfl
                    have hlt' : front.length < n := by
                      rw [List.length_append] at hlt
                      omega
                    obtain ⟨before, o', inside, rfl, ho', hbefore, hinside⟩ :=
                      ih _ hlt' hfront rfl
                    refine ⟨before, o', inside ++ o :: (inner ++ [byte]), by simp, ho', hbefore, ?_⟩
                    rw [Balanced, ofBytes_append, depthFrom?_append, hinside, Option.bind_some,
                      depthFrom?_enclosed ho hb hinner]
                    rfl

/-- A text that closes what was never opened does so first behind a balanced one. -/
theorem exists_overclosing (h : depthFrom? 0 (ofBytes bytes) = none) :
    ∃ before c after, bytes = before ++ c :: after ∧ ofByte? c = some closing ∧
      Balanced (ofBytes before) := by
  induction bytes using List.reverseRecOn with
  | nil => cases h
  | append_singleton bytes byte ih =>
      cases hd : depthFrom? 0 (ofBytes bytes) with
      | none =>
          obtain ⟨before, c, after, rfl, hc, hbefore⟩ := ih hd
          exact ⟨before, c, after ++ [byte], by simp, hc, hbefore⟩
      | some e =>
          rw [depthFrom?_concat, hd, Option.bind_some] at h
          cases hb : ofByte? byte with
          | none =>
              rw [hb] at h
              cases h
          | some side =>
              rw [hb] at h
              cases side with
              | opening => cases h
              | closing =>
                  cases e with
                  | succ e => cases h
                  | zero => exact ⟨bytes, byte, [], rfl, hb, hd⟩

end Bracket

namespace TwoPass

open TapeScript.Bracket

variable {program before inside after : List UInt8} {o c : UInt8} {i j k l : Nat}

/-! ## Pairs of positions -/

/-- A closing bracket behind an opening one, and a balanced text between them. -/
structure Encloses (program : List UInt8) (i j : Nat) : Prop where
  lt : i < j
  opening : program[i]? = some '['.toUInt8
  closing : program[j]? = some ']'.toUInt8
  balanced : Bracket.Balanced (ofBytes ((program.take j).drop (i + 1)))

section Split

variable (before inside after : List UInt8) (o c : UInt8)

theorem take_drop_inside :
    ((before ++ o :: (inside ++ c :: after)).take (before.length + 1 + inside.length)).drop
      (before.length + 1) = inside := by
  rw [List.drop_take, Nat.add_sub_cancel_left, List.drop_length_add_append, List.drop_succ_cons,
    List.drop_zero, List.take_left]

theorem getElem?_behind_inside :
    (before ++ o :: (inside ++ c :: after))[before.length + 1 + inside.length]? = some c := by
  rw [List.getElem?_append_right (by omega), Nat.add_assoc, Nat.add_sub_cancel_left, Nat.add_comm,
    List.getElem?_cons_succ, List.getElem?_append_right (Nat.le_refl _), Nat.sub_self,
    List.getElem?_cons_zero]

end Split

theorem encloses_of_split (ho : ofByte? o = some opening) (hc : ofByte? c = some closing)
    (hinside : Bracket.Balanced (ofBytes inside))
    (h : program = before ++ o :: (inside ++ c :: after)) :
    Encloses program before.length (before.length + 1 + inside.length) := by
  obtain rfl := ofByte?_eq_opening_iff.mp ho
  obtain rfl := ofByte?_eq_closing_iff.mp hc
  subst h
  refine ⟨by omega, ?_, getElem?_behind_inside before inside after _ _, ?_⟩
  · rw [List.getElem?_append_right (Nat.le_refl _), Nat.sub_self, List.getElem?_cons_zero]
  · rwa [take_drop_inside]

theorem Encloses.exists_inside (h : Encloses program i j) :
    ∃ before inside after, program = before ++ '['.toUInt8 :: (inside ++ ']'.toUInt8 :: after) ∧
      before.length = i ∧ i + 1 + inside.length = j ∧ Bracket.Balanced (ofBytes inside) := by
  obtain ⟨hlt, hi, hj, hbalanced⟩ := h
  obtain ⟨before, inside, after, hsplit, rfl, rfl⟩ := exists_split_pair hi hlt hj
  rw [hsplit, take_drop_inside] at hbalanced
  exact ⟨before, inside, after, hsplit, rfl, rfl, hbalanced⟩

end TwoPass

end TapeScript
