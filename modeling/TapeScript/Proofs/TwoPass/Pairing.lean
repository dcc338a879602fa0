import TapeScript.Proofs.Balance
import TapeScript.TwoPass.Program

/-! # Pairs of brackets

The first pass gives every bracket of a balanced program its partner, the one that closes
or opens a balanced text. A program that is not balanced has no table. -/

namespace TapeScript.TwoPass

open TapeScript.Bracket

variable {position d : Nat} {waiting inner : List Nat} {table : JumpTable}

section Cons

variable {byte : UInt8} (position : Nat) (waiting : List Nat) (table : JumpTable)
  (bytes : List UInt8)

theorem pairFrom_none (hb : ofByte? byte = none) :
    pairFrom position waiting table (byte :: bytes) =
      pairFrom (position + 1) waiting table bytes := by
  simp only [pairFrom, hb]

theorem pairFrom_opening (hb : ofByte? byte = some opening) :
    pairFrom position waiting table (byte :: bytes) =
      pairFrom (position + 1) (position :: waiting) table bytes := by
  simp only [pairFrom, hb]

theorem pairFrom_closing (hb : ofByte? byte = some closing) (partner : Nat) :
    pairFrom position (partner :: waiting) table (byte :: bytes) =
      pairFrom (position + 1) waiting
        ((table.setIfInBounds partner (some position)).setIfInBounds position (some partner))
        bytes := by
  simp only [pairFrom, hb]

end Cons

/-- What pairing does between two positions: afterwards `inner'` waits, in front of all that
waited before `inner`, and no entry of another bracket before the first position changes. -/
structure Paired (position : Nat) (inner : List Nat) (table : JumpTable) (bytes : List UInt8)
    (inner' : List Nat) (table' : JumpTable) : Prop where
  waiting_lt : ∀ i ∈ inner', i < position + bytes.length
  size_eq : table'.size = table.size
  untouched : ∀ i < position, i ∉ inner → table'[i]? = table[i]?
  pairFrom_append : ∀ outer rest,
    pairFrom position (inner ++ outer) table (bytes ++ rest) =
      pairFrom (position + bytes.length) (inner' ++ outer) table' rest

namespace Paired

variable {byte : UInt8} {bytes : List UInt8} {inner' : List Nat} {table' : JumpTable}

theorem cons_none (h : Paired (position + 1) inner table bytes inner' table')
    (hb : ofByte? byte = none) : Paired position inner table (byte :: bytes) inner' table' := by
  have hend : position + (byte :: bytes).length = position + 1 + bytes.length := by
    rw [List.length_cons]
    omega
  refine ⟨?_, h.size_eq, ?_, ?_⟩
  · rw [hend]
    exact h.waiting_lt
  · exact fun i hi hne => h.untouched i (Nat.lt_succ_of_lt hi) hne
  · intro outer rest
    rw [List.cons_append, pairFrom_none _ _ _ _ hb, hend]
    exact h.pairFrom_append outer rest

theorem cons_opening (h : Paired (position + 1) (position :: inner) table bytes inner' table')
    (hb : ofByte? byte = some opening) :
    Paired position inner table (byte :: bytes) inner' table' := by
  have hend : position + (byte :: bytes).length = position + 1 + bytes.length := by
    rw [List.length_cons]
    omega
  refine ⟨?_, h.size_eq, ?_, ?_⟩
  · rw [hend]
    exact h.waiting_lt
  · intro i hi hne
    have hnew : i ∉ position :: inner := by
      simp only [List.mem_cons, not_or]
      exact ⟨Nat.ne_of_lt hi, hne⟩
    exact h.untouched i (Nat.lt_succ_of_lt hi) hnew
  · intro outer rest
    rw [List.cons_append, pairFrom_opening _ _ _ _ hb, hend]
    exact h.pairFrom_append outer rest

theorem cons_closing {partner : Nat}
    (h : Paired (position + 1) inner ((table.setIfInBounds partner
      (some position)).setIfInBounds position (some partner)) bytes inner' table')
    (hb : ofByte? byte = some closing) :
    Paired position (partner :: inner) table (byte :: bytes) inner' table' := by
  have hend : position + (byte :: bytes).length = position + 1 + bytes.length := by
    rw [List.length_cons]
    omega
  refine ⟨?_, ?_, ?_, ?_⟩
  · rw [hend]
    exact h.waiting_lt
  · simpa using h.size_eq
  · intro i hi hne
    simp only [List.mem_cons, not_or] at hne
    rw [h.untouched i (Nat.lt_succ_of_lt hi) hne.2,
      Array.getElem?_setIfInBounds_ne (Nat.ne_of_gt hi),
      Array.getElem?_setIfInBounds_ne (Ne.symm hne.1)]
  · intro outer rest
    rw [List.cons_append, List.cons_append, pairFrom_closing _ _ _ _ hb, hend]
    exact h.pairFrom_append outer rest

/-- Where nothing is left to wait, pairing succeeds. -/
theorem pairFrom_eq (h : Paired position inner table bytes [] table') :
    pairFrom position inner table bytes = .ok table' := by
  have heq := h.pairFrom_append [] []
  simp only [List.append_nil] at heq
  exact heq

end Paired

/-- Brackets that close no more than `inner` are paired among themselves and with it. -/
theorem exists_paired (position : Nat) (inner : List Nat) (table : JumpTable) {bytes : List UInt8}
    (hd : depthFrom? inner.length (ofBytes bytes) = some d) (hinner : ∀ i ∈ inner, i < position) :
    ∃ inner' table', inner'.length = d ∧ Paired position inner table bytes inner' table' := by
  induction bytes generalizing position inner table with
  | nil =>
      have hlength : inner.length = d := Option.some.inj hd
      exact ⟨inner, table, hlength, hinner, rfl, fun _ _ _ => rfl, fun _ _ => rfl⟩
  | cons byte bytes ih =>
      have hold : ∀ i ∈ inner, i < position + 1 := fun i hi => Nat.lt_succ_of_lt (hinner i hi)
      rw [ofBytes_cons] at hd
      cases hb : ofByte? byte with
      | none =>
          rw [hb] at hd
          obtain ⟨inner', table', hlength, h⟩ := ih (position + 1) inner table hd hold
          exact ⟨inner', table', hlength, h.cons_none hb⟩
      | some side =>
          rw [hb] at hd
          cases side with
          | opening =>
              obtain ⟨inner', table', hlength, h⟩ := ih (position + 1) (position :: inner) table hd
                (List.forall_mem_cons.mpr ⟨Nat.lt_succ_self position, hold⟩)
              exact ⟨inner', table', hlength, h.cons_opening hb⟩
          | closing =>
              cases inner with
              | nil => cases hd
              | cons partner inner =>
                  obtain ⟨inner', table', hlength, h⟩ := ih (position + 1) inner _ hd
                    (List.forall_mem_cons.mp hold).2
                  exact ⟨inner', table', hlength, h.cons_closing hb⟩

/-- Pairing succeeds for brackets that close all that waits. -/
theorem depthFrom?_of_pairFrom {bytes : List UInt8} {table' : JumpTable}
    (h : pairFrom position waiting table bytes = .ok table') :
    depthFrom? waiting.length (ofBytes bytes) = some 0 := by
  induction bytes generalizing position waiting table with
  | nil =>
      cases waiting with
      | nil => rfl
      | cons partner waiting => cases h
  | cons byte bytes ih =>
      rw [ofBytes_cons]
      cases hb : ofByte? byte with
      | none =>
          rw [pairFrom_none _ _ _ _ hb] at h
          exact ih h
      | some side =>
          cases side with
          | opening =>
              rw [pairFrom_opening _ _ _ _ hb] at h
              exact ih h
          | closing =>
              cases waiting with
              | nil =>
                  simp only [pairFrom, hb] at h
                  cases h
              | cons partner waiting =>
                  rw [pairFrom_closing _ _ _ _ hb] at h
                  exact ih h

/-- A program has a table if and only if its brackets are balanced. -/
theorem exists_jumpTable_iff (program : List UInt8) :
    (∃ table, jumpTable program = .ok table) ↔ Bracket.Balanced (ofBytes program) := by
  constructor
  · intro h
    obtain ⟨table, h⟩ := h
    exact depthFrom?_of_pairFrom h
  · intro h
    obtain ⟨inner', table', hlength, hp⟩ :=
      exists_paired 0 [] (Array.replicate program.length none) h (by simp)
    obtain rfl := List.length_eq_zero_iff.mp hlength
    exact ⟨table', hp.pairFrom_eq⟩

theorem paired_of_pairFrom {bytes : List UInt8} {table' : JumpTable}
    (h : pairFrom position waiting table bytes = .ok table') (hw : ∀ i ∈ waiting, i < position) :
    Paired position waiting table bytes [] table' := by
  obtain ⟨inner', t, hlength, hp⟩ :=
    exists_paired position waiting table (depthFrom?_of_pairFrom h) hw
  obtain rfl := List.length_eq_zero_iff.mp hlength
  obtain rfl : table' = t := Except.ok.inj (h.symm.trans hp.pairFrom_eq)
  exact hp

/-- What waits at the end of a program is paired, and all other entries stay. -/
theorem getElem?_of_pairFrom {bytes : List UInt8} {table' : JumpTable}
    (h : pairFrom position waiting table bytes = .ok table') (hw : ∀ i ∈ waiting, i < position)
    {i : Nat} (hi : i < position) (hne : i ∉ waiting) : table'[i]? = table[i]? :=
  (paired_of_pairFrom h hw).untouched i hi hne

theorem size_jumpTable {program : List UInt8} (h : jumpTable program = .ok table) :
    table.size = program.length := by
  rw [(paired_of_pairFrom h (by simp)).size_eq, Array.size_replicate]

/-- A byte that is no bracket keeps its entry. -/
theorem getElem?_of_pairFrom_comment {bytes : List UInt8} {byte : UInt8} {table' : JumpTable}
    {k : Nat} (h : pairFrom position waiting table bytes = .ok table')
    (hw : ∀ i ∈ waiting, i < position) (hk : bytes[k]? = some byte)
    (hb : ofByte? byte = none) : table'[position + k]? = table[position + k]? := by
  induction bytes generalizing position waiting table k with
  | nil => cases hk
  | cons x bytes ih =>
      have hw' : ∀ i ∈ waiting, i < position + 1 := fun i hi => Nat.lt_succ_of_lt (hw i hi)
      cases k with
      | zero =>
          obtain rfl := Option.some.inj hk
          rw [pairFrom_none _ _ _ _ hb] at h
          exact getElem?_of_pairFrom h hw' (Nat.lt_succ_self position)
            fun hm => Nat.lt_irrefl _ (hw position hm)
      | succ k =>
          rw [List.getElem?_cons_succ] at hk
          have hplace : position + (k + 1) = position + 1 + k := by omega
          rw [hplace]
          cases hx : ofByte? x with
          | none =>
              rw [pairFrom_none _ _ _ _ hx] at h
              exact ih h hw' hk
          | some side =>
              cases side with
              | opening =>
                  rw [pairFrom_opening _ _ _ _ hx] at h
                  exact ih h (List.forall_mem_cons.mpr ⟨Nat.lt_succ_self position, hw'⟩) hk
              | closing =>
                  cases waiting with
                  | nil =>
                      simp only [pairFrom, hx] at h
                      cases h
                  | cons partner waiting =>
                      rw [pairFrom_closing _ _ _ _ hx] at h
                      have hpartner := hw partner List.mem_cons_self
                      rw [ih h (List.forall_mem_cons.mp hw').2 hk,
                        Array.getElem?_setIfInBounds_ne (by omega),
                        Array.getElem?_setIfInBounds_ne (by omega)]

/-- The brackets around a balanced text are partners. -/
theorem jumpTable_pair {before inside after : List UInt8} {o c : UInt8} {table : JumpTable}
    (ho : ofByte? o = some opening) (hc : ofByte? c = some closing)
    (hinside : Bracket.Balanced (ofBytes inside))
    (h : jumpTable (before ++ o :: (inside ++ c :: after)) = .ok table) :
    table[before.length]? = some (some (before.length + 1 + inside.length)) ∧
      table[before.length + 1 + inside.length]? = some (some before.length) := by
  have hbalanced := (exists_jumpTable_iff _).mp ⟨table, h⟩
  rw [Bracket.Balanced, ofBytes_append] at hbalanced
  obtain ⟨d, hd⟩ := exists_depthFrom?_of_append hbalanced
  rw [jumpTable] at h
  have hempty : ∀ {n : Nat}, ∀ i ∈ ([] : List Nat), i < n := by simp
  obtain ⟨waiting, t₁, -, hbefore⟩ := exists_paired 0 [] _ hd hempty
  rw [← List.nil_append ([] : List Nat), hbefore.pairFrom_append, Nat.zero_add,
    pairFrom_opening _ _ _ _ ho] at h
  obtain ⟨inner, t₂, hlength, hin⟩ :=
    exists_paired (before.length + 1) [] t₁ hinside hempty
  obtain rfl := List.length_eq_zero_iff.mp hlength
  rw [← List.nil_append (before.length :: _), hin.pairFrom_append, List.nil_append,
    pairFrom_closing _ _ _ _ hc, List.append_nil] at h
  have hsize : t₂.size = before.length + (inside.length + after.length + 2) := by
    rw [hin.size_eq, hbefore.size_eq]
    simp
    omega
  have hwaiting : ∀ i ∈ waiting, i < before.length := by
    simpa using hbefore.waiting_lt
  have hfinal {i : Nat} (hi : i < before.length + 1 + inside.length + 1)
      (hge : before.length ≤ i) :=
    getElem?_of_pairFrom h (fun i hi => by have := hwaiting i hi; omega) hi
      fun hm => Nat.not_lt.mpr hge (hwaiting i hm)
  constructor
  · rw [hfinal (by omega) (by omega), Array.getElem?_setIfInBounds_ne (by omega),
      Array.getElem?_setIfInBounds_self_of_lt (by omega)]
  · rw [hfinal (by omega) (by omega), Array.getElem?_setIfInBounds_self_of_lt (by simp; omega)]

end TapeScript.TwoPass
