import TapeScript.Proofs.Dialect.Slots

/-! # Dialects with extensions

Extensions are put in behind the built-in commands one after the other, up to the first whose
token is taken. -/

namespace TapeScript.Dialect

variable {d : Dialect} {t : SlotTable} {c e : Command} {given commands : List Command}

/-- No two of the commands have the same token. -/
def Distinct (commands : List Command) : Prop := (commands.map (·.token)).Nodup

/-- Among the commands, `c` is the first whose token is taken: by a given command, or by one
before it. -/
def FirstClash (given commands : List Command) (c : Command) : Prop :=
  ∃ before after, commands = before ++ c :: after ∧ Distinct (given ++ before) ∧
    c.token ∈ (given ++ before).map (·.token)

theorem FirstClash.not_distinct (h : FirstClash given commands c) :
    ¬Distinct (given ++ commands) := by
  obtain ⟨before, after, rfl, -, htaken⟩ := h
  intro hdistinct
  rw [Distinct, ← List.append_assoc, List.map_append, List.nodup_append] at hdistinct
  exact hdistinct.2.2 _ htaken _ List.mem_cons_self rfl

/-- The command before the others is just one more that was given. -/
theorem FirstClash.cons (h : FirstClash (given ++ [e]) commands c) :
    FirstClash given (e :: commands) c := by
  obtain ⟨before, after, rfl, hdistinct, htaken⟩ := h
  rw [List.append_assoc] at hdistinct htaken
  exact ⟨e :: before, after, rfl, hdistinct, htaken⟩

/-! ## Commands are put in -/

/-- Either all the commands are put in, into a dialect and into slots, or both refuse the
first that clashes. -/
inductive PutIn (given commands : List Command) :
    Except Fault Dialect → Except Fault SlotTable → Prop where
  | all {d : Dialect} {t : SlotTable} (hd : d.commands = given ++ commands)
      (ht : t.Shows d.commands) : PutIn given commands (.ok d) (.ok t)
  | refused {c : Command} (h : FirstClash given commands c) :
      PutIn given commands (.error (.tokenTaken c.token)) (.error (.tokenTaken c.token))

theorem PutIn.cons {o : Except Fault Dialect} {p : Except Fault SlotTable}
    (h : PutIn (given ++ [c]) commands o p) : PutIn given (c :: commands) o p := by
  cases h with
  | all hd ht => exact .all (hd.trans (List.append_cons given c commands).symm) ht
  | refused h => exact .refused h.cons

theorem putIn_foldlM (ht : t.Shows d.commands) (commands : List Command) :
    PutIn d.commands commands (commands.foldlM insert d) (commands.foldlM SlotTable.insert t) := by
  induction commands generalizing d t with
  | nil => exact .all (List.append_nil _).symm ht
  | cons c commands ih =>
      rw [List.foldlM_cons, List.foldlM_cons, SlotTable.insert]
      by_cases hmem : c.token ∈ d.commands.map (·.token)
      · rw [insert_of_taken hmem, if_pos (ht.isSome_find?_iff.mpr hmem)]
        have hdistinct : Distinct (d.commands ++ []) := by
          rw [List.append_nil]
          exact d.nodup
        exact .refused ⟨[], commands, rfl, hdistinct, by rwa [List.append_nil]⟩
      · obtain ⟨d', hinsert, hd'⟩ := insert_of_free hmem
        have hput := ht.put hmem
        rw [← hd'] at hput
        have hrest := ih hput
        rw [hd'] at hrest
        rw [hinsert, if_neg fun h => hmem (ht.isSome_find?_iff.mp h)]
        exact hrest.cons

/-! ## What a dialect with extensions is -/

/-- The dialect finds and lists the given commands, and no others. -/
structure Holds (d : Dialect) (given : List Command) : Prop where
  size : d.size = given.length
  find?_eq_some_iff : ∀ token c, d.find? token = some c ↔ c ∈ given ∧ c.token = token
  find?_eq_none_iff : ∀ token, d.find? token = none ↔ ∀ c ∈ given, c.token ≠ token
  tokens_sorted : d.tokens.Pairwise (· < ·)
  mem_tokens_iff : ∀ token, token ∈ d.tokens ↔ ∃ c ∈ given, c.token = token
  length_tokens : d.tokens.length = d.size

theorem holds_commands (d : Dialect) : d.Holds d.commands where
  size := rfl
  find?_eq_some_iff _ _ := Dialect.find?_eq_some_iff
  find?_eq_none_iff token := by
    rw [Dialect.find?_eq_none_iff, List.mem_map]
    simp only [not_exists, not_and, ne_eq]
  tokens_sorted := Dialect.tokens_sorted d
  mem_tokens_iff _ := Dialect.mem_tokens_iff.trans List.mem_map
  length_tokens := Dialect.length_tokens d

/-- The slots answer as the dialect does. -/
structure SameAnswers (d : Dialect) (t : SlotTable) : Prop where
  find? : ∀ token, t.find? token = d.find? token
  taken : t.taken = d.size
  tokens : t.tokens = d.tokens

theorem sameAnswers (ht : t.Shows d.commands) : d.SameAnswers t :=
  ⟨ht.find?_eq, ht.taken, ht.tokens_eq⟩

/-- What becomes of the extensions: a dialect that holds them behind the built-in commands, or
the first one whose token is taken is reported. -/
inductive Extended (extensions : List Command) :
    Except Fault Dialect → Except Fault SlotTable → Prop where
  | all {d : Dialect} {t : SlotTable} (size : d.size = 8 + extensions.length)
      (holds : d.Holds (Command.builtins ++ extensions)) (slots : d.SameAnswers t) :
      Extended extensions (.ok d) (.ok t)
  | refused {c : Command} (h : FirstClash Command.builtins extensions c) :
      Extended extensions (.error (.tokenTaken c.token)) (.error (.tokenTaken c.token))

/-- There is a dialect with these extensions exactly if all tokens are different, those of the
built-in commands among them. -/
theorem ofExtensions_extended (extensions : List Command) :
    ((∃ d, ofExtensions extensions = .ok d) ↔ Distinct (Command.builtins ++ extensions)) ∧
      Extended extensions (ofExtensions extensions) (SlotTable.ofExtensions extensions) := by
  have hputIn : PutIn Command.builtins extensions (ofExtensions extensions)
      (SlotTable.ofExtensions extensions) :=
    putIn_foldlM (d := builtin) SlotTable.builtin_shows extensions
  generalize ofExtensions extensions = o, SlotTable.ofExtensions extensions = p at hputIn
  cases hputIn with
  | @all d t hd ht =>
      have hdistinct : Distinct (Command.builtins ++ extensions) := hd ▸ d.nodup
      have hsize : d.size = 8 + extensions.length := by
        rw [size, hd, List.length_append]
        rfl
      exact ⟨⟨fun _ => hdistinct, fun _ => ⟨d, rfl⟩⟩,
        .all hsize (hd ▸ holds_commands d) (sameAnswers ht)⟩
  | refused h =>
      refine ⟨⟨?_, fun hdistinct => absurd hdistinct h.not_distinct⟩, .refused h⟩
      rintro ⟨d, ⟨⟩⟩

/-- A token that is taken by a built-in command clashes before one that is given twice later. -/
example :
    let plus := Command.extension '+'.toUInt8 .done
    let star := Command.extension '*'.toUInt8 .done
    ofExtensions [star, plus, star] = .error (.tokenTaken '+'.toUInt8) := rfl

end TapeScript.Dialect
