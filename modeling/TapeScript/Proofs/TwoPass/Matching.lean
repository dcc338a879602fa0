import TapeScript.Proofs.TwoPass.Partners
import Mathlib.Data.List.Infix

/-! # The table of a program

A table holds the partner of every bracket and nothing else. A program without a table is
told where it first closes too many brackets or, if it nowhere does, which bracket is the
last that stays open. -/

namespace TapeScript.TwoPass

open TapeScript.Bracket

variable {program before inside : List UInt8} {o c : UInt8} {table : JumpTable} {i j k l m d : Nat}

/-! ## Partners in a balanced program -/

theorem Encloses.jumpTable_eq (h : Encloses program i j) (ht : jumpTable program = .ok table) :
    table[i]? = some (some j) ∧ table[j]? = some (some i) := by
  obtain ⟨before, inside, after, rfl, rfl, rfl, hinside⟩ := h.exists_inside
  exact jumpTable_pair (ofByte?_eq_opening_iff.mpr rfl) (ofByte?_eq_closing_iff.mpr rfl) hinside ht

/-- A bracket that is opened and not left open at the end is closed by another one. -/
theorem exists_encloses_of_opening {behind : List UInt8} (ho : ofByte? o = some opening)
    (hd : depthFrom? (k + 1) (ofBytes behind) = some d) (hle : d ≤ k)
    (h : program = before ++ o :: behind) : ∃ j, Encloses program before.length j := by
  obtain ⟨inside, c, after, rfl, hc, hinside, -⟩ := exists_closing hd hle
  exact ⟨_, encloses_of_split ho hc hinside h⟩

theorem exists_encloses_of_closing {after : List UInt8} (hc : ofByte? c = some closing)
    (hd : depthFrom? 0 (ofBytes before) = some (k + 1)) (h : program = before ++ c :: after) :
    ∃ i, Encloses program i before.length := by
  obtain ⟨front, o, inside, rfl, ho, -, hinside⟩ := exists_opening hd
  have hsplit : program = front ++ o :: (inside ++ c :: after) := by simp [h]
  have hlength : (front ++ o :: inside).length = front.length + 1 + inside.length := by
    simp only [List.length_append, List.length_cons]
    omega
  rw [hlength]
  exact ⟨_, encloses_of_split ho hc hinside hsplit⟩

section Balanced

variable (hb : Bracket.Balanced (ofBytes program))

include hb in
theorem exists_closing_partner (hi : program[i]? = some '['.toUInt8) :
    ∃ j, Encloses program i j := by
  obtain ⟨before, behind, rfl, rfl⟩ := exists_split hi
  rw [Bracket.Balanced, ofBytes_append, depthFrom?_append, Option.bind_eq_some_iff] at hb
  obtain ⟨k, -, hbehind⟩ := hb
  exact exists_encloses_of_opening (ofByte?_eq_opening_iff.mpr rfl) hbehind (Nat.zero_le k) rfl

include hb in
theorem exists_opening_partner (hj : program[j]? = some ']'.toUInt8) :
    ∃ i, Encloses program i j := by
  obtain ⟨before, after, rfl, rfl⟩ := exists_split hj
  rw [Bracket.Balanced, ofBytes_append, depthFrom?_append, Option.bind_eq_some_iff] at hb
  obtain ⟨d, hbefore, hafter⟩ := hb
  cases d with
  | zero => cases hafter
  | succ k => exact exists_encloses_of_closing (ofByte?_eq_closing_iff.mpr rfl) hbefore rfl

end Balanced

/-- A bracket that opens within a pair is closed within it. -/
theorem Encloses.exists_depthFrom? (h : Encloses program i j) (hik : i < k) (hkj : k < j)
    (hk : program[k]? = some '['.toUInt8) :
    ∃ d, depthFrom? (d + 1) (ofBytes ((program.take j).drop (k + 1))) = some 0 := by
  have hopening : ((program.take j).drop (i + 1))[k - (i + 1)]? = some '['.toUInt8 := by
    rwa [List.getElem?_drop, Nat.add_sub_cancel' hik, List.getElem?_take_of_lt hkj]
  obtain ⟨front, rest, hsplit, hfront⟩ := exists_split hopening
  have hrest : (program.take j).drop (k + 1) = rest := by
    have hplace : k + 1 = i + 1 + (front.length + 1) := by omega
    rw [hplace, ← List.drop_drop, hsplit, List.drop_length_add_append]
    rfl
  have hinside := h.balanced
  rw [hsplit, Bracket.Balanced, ofBytes_append, depthFrom?_append, Option.bind_eq_some_iff]
    at hinside
  obtain ⟨d, -, hd⟩ := hinside
  rw [hrest]
  exact ⟨d, hd⟩

/-- Of two pairs of brackets the one that opens first closes last, or before the other opens. -/
theorem Encloses.nested_or_disjoint (h : Encloses program i j) (h' : Encloses program k l)
    (hik : i < k) : l < j ∨ j < k := by
  rcases Nat.lt_or_ge j k with hjk | hkj
  · exact .inr hjk
  rcases Nat.lt_or_ge l j with hlj | hjl
  · exact .inl hlj
  have hne : k ≠ j := by
    rintro rfl
    exact absurd (h'.opening.symm.trans h.closing) (by decide)
  -- the text from `k` to `j` closes the bracket at `k`, and as a beginning of its pair does not
  obtain ⟨e, he⟩ := h.exists_depthFrom? hik (Nat.lt_of_le_of_ne hkj hne) h'.opening
  obtain ⟨behind, hbehind⟩ : (program.take j).drop (k + 1) <+: (program.take l).drop (k + 1) :=
    List.IsPrefix.drop (List.take_prefix_take_left hjl) (k + 1)
  have hinside := h'.balanced
  rw [← hbehind, Bracket.Balanced, ofBytes_append] at hinside
  obtain ⟨d, hd⟩ := exists_depthFrom?_of_append hinside
  have hgreater := depthFrom?_add hd (e + 1)
  rw [Nat.zero_add, he] at hgreater
  cases hgreater

/-- The table of a program with balanced brackets: every bracket has its partner, every other
byte has none, and no two pairs overlap. -/
structure Pairs (program : List UInt8) (table : JumpTable) : Prop where
  size_eq : table.size = program.length
  none_iff : ∀ {i : Nat} {byte : UInt8}, program[i]? = some byte →
    (table[i]? = some none ↔ byte ≠ '['.toUInt8 ∧ byte ≠ ']'.toUInt8)
  opening : ∀ {i : Nat}, program[i]? = some '['.toUInt8 →
    ∃ j, table[i]? = some (some j) ∧ table[j]? = some (some i) ∧ Encloses program i j
  closing : ∀ {j : Nat}, program[j]? = some ']'.toUInt8 →
    ∃ i, table[j]? = some (some i) ∧ table[i]? = some (some j) ∧ Encloses program i j
  nested_or_disjoint : ∀ {i j k l : Nat}, table[i]? = some (some j) →
    table[k]? = some (some l) → i < j → k < l → i < k → l < j ∨ j < k

theorem encloses_of_jumpTable (ht : jumpTable program = .ok table)
    (hij : i < j) (h : table[i]? = some (some j)) : Encloses program i j := by
  have hb := (exists_jumpTable_iff program).mp ⟨table, ht⟩
  have hlt : i < program.length := by
    rw [← size_jumpTable ht]
    exact (Array.getElem?_eq_some_iff.mp h).1
  have hbyte := List.getElem?_eq_getElem hlt
  cases hside : ofByte? program[i] with
  | none =>
      have hnone := getElem?_of_pairFrom_comment ht (by simp) hbyte hside
      rw [Nat.zero_add, h, Array.getElem?_replicate, if_pos hlt] at hnone
      cases hnone
  | some side =>
      cases side with
      | opening =>
          rw [ofByte?_eq_opening_iff.mp hside] at hbyte
          obtain ⟨j', hj'⟩ := exists_closing_partner hb hbyte
          obtain rfl : j = j' := by simpa [h] using (hj'.jumpTable_eq ht).1
          exact hj'
      | closing =>
          rw [ofByte?_eq_closing_iff.mp hside] at hbyte
          obtain ⟨i', hi'⟩ := exists_opening_partner hb hbyte
          obtain rfl : j = i' := by simpa [h] using (hi'.jumpTable_eq ht).2
          exact absurd hi'.lt (Nat.lt_asymm hij)

theorem pairs_of_jumpTable (ht : jumpTable program = .ok table) : Pairs program table := by
  have hb := (exists_jumpTable_iff program).mp ⟨table, ht⟩
  have hopening {i : Nat} (hi : program[i]? = some '['.toUInt8) : ∃ j,
      table[i]? = some (some j) ∧ table[j]? = some (some i) ∧ Encloses program i j := by
    obtain ⟨j, hj⟩ := exists_closing_partner hb hi
    exact ⟨j, (hj.jumpTable_eq ht).1, (hj.jumpTable_eq ht).2, hj⟩
  have hclosing {j : Nat} (hj : program[j]? = some ']'.toUInt8) : ∃ i,
      table[j]? = some (some i) ∧ table[i]? = some (some j) ∧ Encloses program i j := by
    obtain ⟨i, hi⟩ := exists_opening_partner hb hj
    exact ⟨i, (hi.jumpTable_eq ht).2, (hi.jumpTable_eq ht).1, hi⟩
  refine ⟨size_jumpTable ht, ?_, hopening, hclosing, ?_⟩
  · intro i byte hi
    constructor
    · intro hnone
      constructor
      · rintro rfl
        obtain ⟨j, hj, -⟩ := hopening hi
        cases hnone.symm.trans hj
      · rintro rfl
        obtain ⟨j, hj, -⟩ := hclosing hi
        cases hnone.symm.trans hj
    · rintro ⟨hno, hnc⟩
      have hside : ofByte? byte = none := by rw [ofByte?, if_neg hno, if_neg hnc]
      have hnone := getElem?_of_pairFrom_comment ht (by simp) hi hside
      rwa [Nat.zero_add, Array.getElem?_replicate,
        if_pos (List.getElem?_eq_some_iff.mp hi).1] at hnone
  · intro i j k l hj hl hij hkl hik
    exact (encloses_of_jumpTable ht hij hj).nested_or_disjoint (encloses_of_jumpTable ht hkl hl) hik

/-! ## Programs without a table -/

/-- The shortest beginning that closes more brackets than it opens ends at `k`. -/
structure FirstOverclosed (program : List UInt8) (k : Nat) : Prop where
  overclosed : Overclosed (ofBytes (program.take (k + 1)))
  first : ∀ m ≤ k, ¬Overclosed (ofBytes (program.take m))

/-- The bracket at `k` is the last opening one without a partner. -/
structure LastUnmatched (program : List UInt8) (k : Nat) : Prop where
  opening : program[k]? = some '['.toUInt8
  unmatched : ∀ j, ¬Encloses program k j
  last : ∀ i, k < i → program[i]? = some '['.toUInt8 → ∃ j, Encloses program i j

/-- Nothing waits any more when a bracket closes behind a balanced text. -/
theorem jumpTable_overclosed {after : List UInt8} (hc : ofByte? c = some closing)
    (hbefore : Bracket.Balanced (ofBytes before)) :
    jumpTable (before ++ c :: after) = .error (.unmatched .closing before.length) := by
  obtain ⟨waiting, table, hlength, hp⟩ := exists_paired 0 [] _ hbefore (List.forall_mem_nil _)
  obtain rfl := List.length_eq_zero_iff.mp hlength
  rw [jumpTable, ← List.nil_append ([] : List Nat), hp.pairFrom_append, Nat.zero_add]
  simp only [pairFrom, hc, List.append_nil]

theorem firstOverclosed {after : List UInt8} (hc : ofByte? c = some closing)
    (hbefore : Bracket.Balanced (ofBytes before)) :
    FirstOverclosed (before ++ c :: after) before.length := by
  constructor
  · have hcount := count_of_depthFrom? hbefore
    have hlast : ofBytes ((c :: after).take 1) = [closing] := by
      rw [List.take_succ_cons, List.take_zero, ofBytes_cons, hc]
      rfl
    rw [List.take_length_add_append, Overclosed, ofBytes_append, hlast, List.count_append,
      List.count_append, List.count_singleton_self, List.count_singleton, if_neg (by decide)]
    omega
  · intro m hm
    have hsplit := List.take_append_drop m before
    rw [List.take_append_of_le_length hm]
    rw [Bracket.Balanced, ← hsplit, ofBytes_append] at hbefore
    obtain ⟨d, hd⟩ := exists_depthFrom?_of_append hbefore
    exact not_overclosed_of_depthFrom? hd

/-- The innermost of the brackets that wait at the end stands in front of a balanced text. -/
theorem jumpTable_unmatched (ho : ofByte? o = some opening)
    (hbefore : depthFrom? 0 (ofBytes before) = some d)
    (hinside : Bracket.Balanced (ofBytes inside)) :
    jumpTable (before ++ o :: inside) = .error (.unmatched .opening before.length) := by
  obtain ⟨waiting, table, -, hp⟩ := exists_paired 0 [] _ hbefore (List.forall_mem_nil _)
  rw [jumpTable, ← List.nil_append ([] : List Nat), hp.pairFrom_append, Nat.zero_add,
    pairFrom_opening _ _ _ _ ho]
  obtain ⟨inner, table', hlength, hq⟩ := exists_paired (before.length + 1) [] table hinside
    (List.forall_mem_nil _)
  obtain rfl := List.length_eq_zero_iff.mp hlength
  rw [← List.nil_append (before.length :: _), ← List.append_nil inside, hq.pairFrom_append]
  simp only [pairFrom, List.nil_append]

theorem lastUnmatched (ho : ofByte? o = some opening)
    (hinside : Bracket.Balanced (ofBytes inside)) :
    LastUnmatched (before ++ o :: inside) before.length := by
  obtain rfl := ofByte?_eq_opening_iff.mp ho
  refine ⟨?_, ?_, ?_⟩
  · rw [List.getElem?_append_right (Nat.le_refl _), Nat.sub_self, List.getElem?_cons_zero]
  · intro j hj
    obtain ⟨before', body, after, hsplit, hlength, -, hbody⟩ := hj.exists_inside
    obtain ⟨rfl, hrest⟩ := List.append_inj hsplit hlength.symm
    obtain rfl := (List.cons.inj hrest).2
    rw [Bracket.Balanced, depthFrom?_closing (ofByte?_eq_closing_iff.mpr rfl) hbody] at hinside
    cases hinside
  · intro i hi hopen
    obtain ⟨k, rfl⟩ : ∃ k, i = before.length + (k + 1) := ⟨i - before.length - 1, by omega⟩
    rw [List.getElem?_append_right (by omega), Nat.add_sub_cancel_left,
      List.getElem?_cons_succ] at hopen
    obtain ⟨front, behind, rfl, rfl⟩ := exists_split hopen
    rw [Bracket.Balanced, ofBytes_append, depthFrom?_append, Option.bind_eq_some_iff] at hinside
    obtain ⟨e, -, hbehind⟩ := hinside
    have hlength : before.length + (front.length + 1) = (before ++ '['.toUInt8 :: front).length := by
      simp
    rw [hlength]
    exact exists_encloses_of_opening ho hbehind (Nat.zero_le e) (by simp)

/-! ## The first pass -/

/-- A program has a table if and only if its brackets are balanced, and the table is then the
pairing of its brackets. Any other program fails at the first bracket that closes too many or,
if none does, at the last one that is opened without a partner. -/
theorem jumpTable_matches (program : List UInt8) :
    ((∃ table, jumpTable program = .ok table) ↔ Bracket.Balanced (ofBytes program)) ∧
    (∀ table, jumpTable program = .ok table → Pairs program table) ∧
    (∀ failure, jumpTable program = .error failure →
      ((∃ m, Overclosed (ofBytes (program.take m))) →
        ∃ k, FirstOverclosed program k ∧ failure.message = s!"unmatched ']' at {k}") ∧
      ((∀ m, ¬Overclosed (ofBytes (program.take m))) →
        ∃ k, LastUnmatched program k ∧ failure.message = s!"unmatched '[' at {k}")) := by
  refine ⟨exists_jumpTable_iff program, fun table => pairs_of_jumpTable, ?_⟩
  intro failure h
  cases hd : depthFrom? 0 (ofBytes program) with
  | none =>
      obtain ⟨before, c, after, rfl, hc, hbefore⟩ := exists_overclosing hd
      obtain rfl := Except.error.inj (h.symm.trans (jumpTable_overclosed hc hbefore))
      have hfirst : FirstOverclosed (before ++ c :: after) before.length :=
        firstOverclosed hc hbefore
      exact ⟨fun _ => ⟨_, hfirst, rfl⟩, fun hnone => absurd hfirst.overclosed (hnone _)⟩
  | some d =>
      have hnone (m : Nat) : ¬Overclosed (ofBytes (program.take m)) := by
        rw [← List.take_append_drop m program, ofBytes_append] at hd
        obtain ⟨e, he⟩ := exists_depthFrom?_of_append hd
        exact not_overclosed_of_depthFrom? he
      refine ⟨fun ⟨m, hm⟩ => absurd hm (hnone m), fun _ => ?_⟩
      cases d with
      | zero =>
          obtain ⟨table, htable⟩ := (exists_jumpTable_iff program).mpr hd
          cases htable.symm.trans h
      | succ k =>
          obtain ⟨before, o, inside, rfl, ho, hbefore, hinside⟩ := exists_opening hd
          obtain rfl := Except.error.inj (h.symm.trans (jumpTable_unmatched ho hbefore hinside))
          exact ⟨_, lastUnmatched ho hinside, rfl⟩

theorem jumpTable_matches_comment :
    Pairs ['['.toUInt8, 'x'.toUInt8, ']'.toUInt8] #[some 2, none, some 0] ∧
      ∃ k, FirstOverclosed ['x'.toUInt8, ']'.toUInt8] k ∧
        Failure.message (.unmatched .closing 1) = s!"unmatched ']' at {k}" :=
  ⟨(jumpTable_matches _).2.1 _ rfl,
    ((jumpTable_matches ['x'.toUInt8, ']'.toUInt8]).2.2 _ rfl).1 ⟨2, Nat.zero_lt_one⟩⟩

end TapeScript.TwoPass
