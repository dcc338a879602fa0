import TapeScript.Bracket
import Mathlib.Data.List.Induction

/-! # Depth and balance of brackets -/

namespace TapeScript.Bracket

variable {d e : Nat} {xs ys : List Bracket}

theorem depthFrom?_append (d : Nat) (xs ys : List Bracket) :
    depthFrom? d (xs ++ ys) = (depthFrom? d xs).bind fun e => depthFrom? e ys := by
  induction xs generalizing d with
  | nil => rfl
  | cons x xs ih =>
      cases x with
      | opening => exact ih (d + 1)
      | closing =>
          cases d with
          | zero => rfl
          | succ d => exact ih d

/-- Brackets that get along at some depth get along at every greater one. -/
theorem depthFrom?_add (h : depthFrom? d xs = some e) (k : Nat) :
    depthFrom? (d + k) xs = some (e + k) := by
  induction xs generalizing d with
  | nil =>
      obtain rfl := Option.some.inj h
      rfl
  | cons x xs ih =>
      cases x with
      | opening =>
          have := ih (d := d + 1) h
          rwa [Nat.add_right_comm] at this
      | closing =>
          cases d with
          | zero => cases h
          | succ d =>
              rw [Nat.add_right_comm]
              exact ih h

theorem Balanced.depthFrom? (h : Balanced xs) (k : Nat) : depthFrom? k xs = some k := by
  have := depthFrom?_add h k
  rwa [Nat.zero_add] at this

/-- No beginning of balanced brackets closes what was never opened. -/
theorem exists_depthFrom?_of_append (h : depthFrom? d (xs ++ ys) = some e) :
    ∃ k, depthFrom? d xs = some k := by
  rw [depthFrom?_append] at h
  obtain ⟨k, hk, -⟩ := Option.bind_eq_some_iff.mp h
  exact ⟨k, hk⟩

/-! ## Counting brackets -/

/-- More brackets close than open. -/
def Overclosed (xs : List Bracket) : Prop := xs.count opening < xs.count closing

theorem count_of_depthFrom? (h : depthFrom? d xs = some e) :
    d + xs.count opening = e + xs.count closing := by
  induction xs generalizing d with
  | nil => exact congrArg (· + 0) (Option.some.inj h)
  | cons x xs ih =>
      cases x with
      | opening =>
          have := ih (d := d + 1) h
          rw [List.count_cons_self, List.count_cons_of_ne (by decide)]
          omega
      | closing =>
          cases d with
          | zero => cases h
          | succ d =>
              have := ih (d := d) h
              rw [List.count_cons_self, List.count_cons_of_ne (by decide)]
              omega

theorem not_overclosed_of_depthFrom? (h : depthFrom? 0 xs = some e) : ¬Overclosed xs := by
  have := count_of_depthFrom? h
  rw [Overclosed]
  omega

/-- Brackets get along unless some beginning of them closes more than it opens. -/
theorem depthFrom?_eq_none_iff (xs : List Bracket) :
    depthFrom? 0 xs = none ↔ ∃ ys, ys <+: xs ∧ Overclosed ys := by
  constructor
  · intro h
    induction xs using List.reverseRecOn with
    | nil => cases h
    | append_singleton xs x ih =>
        cases hx : depthFrom? 0 xs with
        | none =>
            obtain ⟨ys, hys, hover⟩ := ih hx
            exact ⟨ys, hys.trans (List.prefix_append xs [x]), hover⟩
        | some e =>
            rw [depthFrom?_append, hx] at h
            have hcount := count_of_depthFrom? hx
            refine ⟨xs ++ [x], List.prefix_rfl, ?_⟩
            cases x with
            | opening => cases h
            | closing =>
                cases e with
                | succ e => cases h
                | zero =>
                    rw [Overclosed, List.count_append, List.count_append,
                      List.count_singleton_self, List.count_singleton, if_neg (by decide)]
                    omega
  · rintro ⟨ys, ⟨zs, rfl⟩, hover⟩
    cases h : depthFrom? 0 (ys ++ zs) with
    | none => rfl
    | some e =>
        obtain ⟨k, hk⟩ := exists_depthFrom?_of_append h
        exact absurd hover (not_overclosed_of_depthFrom? hk)

theorem depthFrom?_eq_some_iff (xs : List Bracket) (n : Nat) :
    depthFrom? 0 xs = some n ↔
      (∀ ys, ys <+: xs → ¬Overclosed ys) ∧ xs.count opening = xs.count closing + n := by
  cases h : depthFrom? 0 xs with
  | none =>
      obtain ⟨ys, hys, hover⟩ := (depthFrom?_eq_none_iff xs).mp h
      constructor
      · rintro ⟨⟩
      · rintro ⟨hnone, -⟩
        exact absurd hover (hnone ys hys)
  | some e =>
      have hcount := count_of_depthFrom? h
      have hnone : ∀ ys, ys <+: xs → ¬Overclosed ys := by
        intro ys hys hover
        rw [(depthFrom?_eq_none_iff xs).mpr ⟨ys, hys, hover⟩] at h
        cases h
      rw [Option.some.injEq]
      constructor
      · rintro rfl
        exact ⟨hnone, by omega⟩
      · rintro ⟨-, hn⟩
        omega

/-! ## Brackets of bytes and commands -/

@[simp] theorem ofBytes_append (xs ys : List UInt8) :
    ofBytes (xs ++ ys) = ofBytes xs ++ ofBytes ys :=
  List.filterMap_append

theorem ofBytes_cons (byte : UInt8) (bytes : List UInt8) :
    ofBytes (byte :: bytes) =
      match ofByte? byte with
      | some side => side :: ofBytes bytes
      | none => ofBytes bytes := by
  simp only [ofBytes, List.filterMap_cons]
  cases ofByte? byte <;> rfl

@[simp] theorem ofCommands_append (cs ds : List Command) :
    ofCommands (cs ++ ds) = ofCommands cs ++ ofCommands ds :=
  List.filterMap_append

theorem ofCommands_cons (c : Command) (cs : List Command) :
    ofCommands (c :: cs) =
      match c.kind with
      | .simple _ => ofCommands cs
      | .loopOpen => opening :: ofCommands cs
      | .loopClose => closing :: ofCommands cs := by
  cases h : c.kind <;> simp [ofCommands, ofCommand?, h]

end TapeScript.Bracket
