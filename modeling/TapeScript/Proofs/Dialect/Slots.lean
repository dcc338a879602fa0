import TapeScript.Proofs.Dialect.Lookup

/-! # Commands in slots

Every byte has a slot for the command with that token, so that a lookup need not search, and
the commands are counted as they are put in. Slots that are filled one command at a time show
what a dialect finds, and their count does not drift from it. -/

namespace TapeScript

structure SlotTable where
  slots : Vector (Option Command) 256
  taken : Nat

namespace SlotTable

def empty : SlotTable := ⟨.replicate 256 none, 0⟩

def find? (t : SlotTable) (token : UInt8) : Option Command := t.slots[token.toFin]

/-- Fills the slot of the command's token, whatever is in it. -/
def put (t : SlotTable) (c : Command) : SlotTable :=
  ⟨t.slots.set c.token.toFin (some c), t.taken + 1⟩

def insert (t : SlotTable) (c : Command) : Except Fault SlotTable :=
  if (t.find? c.token).isSome then .error (.tokenTaken c.token) else .ok (t.put c)

def builtin : SlotTable := Command.builtins.foldl put empty

def ofExtensions (extensions : List Command) : Except Fault SlotTable :=
  extensions.foldlM insert builtin

/-- The tokens of the commands in the slots, from the first slot to the last. -/
def tokens (t : SlotTable) : List UInt8 := (t.slots.toList.filterMap id).map (·.token)

variable {t : SlotTable} {d : Dialect} {token : UInt8} {c c' : Command}
  {given commands : List Command}

theorem find?_empty (token : UInt8) : empty.find? token = none :=
  Vector.getElem_replicate _

theorem find?_put (t : SlotTable) (c : Command) (token : UInt8) :
    (t.put c).find? token = if token = c.token then some c else t.find? token := by
  simp only [find?, put, Fin.getElem_fin, Vector.getElem_set, Fin.val_inj, UInt8.toFin_inj,
    eq_comm]

/-- A slot is filled if its token is that of a given command, and then with this one. -/
structure Shows (t : SlotTable) (given : List Command) : Prop where
  find?_eq_some_iff : ∀ token c, t.find? token = some c ↔ c ∈ given ∧ c.token = token
  taken : t.taken = given.length

theorem Shows.empty : SlotTable.empty.Shows [] := by
  refine ⟨fun token c => ?_, rfl⟩
  simp [find?_empty]

theorem Shows.isSome_find?_iff (h : t.Shows given) :
    (t.find? token).isSome ↔ token ∈ given.map (·.token) := by
  rw [Option.isSome_iff_exists, List.mem_map]
  exact exists_congr fun c => h.find?_eq_some_iff token c

theorem Shows.put (h : t.Shows given) (hfree : c.token ∉ given.map (·.token)) :
    (t.put c).Shows (given ++ [c]) := by
  refine ⟨fun token c' => ?_, ?_⟩
  · rw [find?_put, List.mem_append, List.mem_singleton]
    by_cases ht : token = c.token
    · have hnot : ¬(c' ∈ given ∧ c'.token = token) := by
        rintro ⟨hmem, htoken⟩
        exact hfree (ht ▸ htoken ▸ List.mem_map_of_mem hmem)
      rw [if_pos ht, Option.some.injEq]
      constructor
      · rintro rfl
        exact ⟨.inr rfl, ht.symm⟩
      · rintro ⟨hmem | rfl, htoken⟩
        · exact absurd ⟨hmem, htoken⟩ hnot
        · rfl
    · rw [if_neg ht, h.find?_eq_some_iff]
      constructor
      · exact fun ⟨hmem, htoken⟩ => ⟨.inl hmem, htoken⟩
      · rintro ⟨hmem | rfl, htoken⟩
        · exact ⟨hmem, htoken⟩
        · exact absurd htoken.symm ht
  · rw [List.length_append, ← h.taken]
    rfl

/-- Commands that are all different fill a slot each. -/
theorem Shows.foldl_put (h : t.Shows given)
    (hdistinct : ((given ++ commands).map (·.token)).Nodup) :
    (commands.foldl SlotTable.put t).Shows (given ++ commands) := by
  induction commands generalizing t given with
  | nil => rwa [List.append_nil]
  | cons c commands ih =>
      rw [List.append_cons] at hdistinct ⊢
      refine ih (h.put fun hmem => ?_) hdistinct
      rw [List.map_append, List.map_append, List.append_assoc, List.nodup_append] at hdistinct
      exact hdistinct.2.2 _ hmem _ List.mem_cons_self rfl

theorem builtin_shows : builtin.Shows Command.builtins :=
  Shows.empty.foldl_put Dialect.builtin.nodup

/-! ## What a dialect holds -/

theorem Shows.find?_eq (h : t.Shows d.commands) (token : UInt8) :
    t.find? token = d.find? token :=
  Option.ext fun c => (h.find?_eq_some_iff token c).trans Dialect.find?_eq_some_iff.symm

/-- The slots stand in the order of the bytes. -/
theorem toList_slots (t : SlotTable) : t.slots.toList = Dialect.bytes.map t.find? := by
  refine List.ext_getElem ?_ fun i hi hi' => ?_
  · simp [Dialect.bytes]
  · have hlt : i < 256 := by simpa using hi
    simp [Dialect.bytes, find?, Nat.mod_eq_of_lt hlt]

theorem Shows.tokens_eq (h : t.Shows d.commands) : t.tokens = d.tokens := by
  have hfind : t.find? = d.find? := funext h.find?_eq
  rw [tokens, toList_slots, List.filterMap_map, hfind]
  exact Dialect.map_token_commandsOf d Dialect.bytes

end SlotTable

end TapeScript
