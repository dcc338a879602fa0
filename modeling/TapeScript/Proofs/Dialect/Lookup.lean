import TapeScript.Dialect
import Mathlib.Data.List.Nodup
import Mathlib.Data.List.Perm.Basic

/-! # Looking up commands

A dialect finds a command by its token, and lists its tokens by trying every byte. -/

namespace TapeScript.Dialect

variable {d : Dialect} {token : UInt8} {c : Command}

/-! ## The command of a token -/

theorem token_of_find? (h : d.find? token = some c) : c.token = token := by
  have hfound := List.find?_some h
  exact eq_of_beq hfound

/-- No two commands have the same token, so the first with a token is the only one. -/
theorem find?_eq_some_iff : d.find? token = some c ↔ c ∈ d.commands ∧ c.token = token := by
  constructor
  · intro h
    exact ⟨List.mem_of_find?_eq_some h, token_of_find? h⟩
  · rintro ⟨hmem, rfl⟩
    cases hfind : d.find? c.token with
    | none => exact absurd (List.mem_map_of_mem hmem) (find?_eq_none_iff.mp hfind)
    | some c' =>
        have hmem' := List.mem_of_find?_eq_some hfind
        exact congrArg some
          (List.inj_on_of_nodup_map d.nodup hmem' hmem (token_of_find? hfind))

theorem contains_iff : d.contains token = true ↔ token ∈ d.commands.map (·.token) := by
  rw [contains, Option.isSome_iff_ne_none, ne_eq, find?_eq_none_iff, Decidable.not_not]

/-- What is found for bytes are the commands of those bytes that are tokens. -/
theorem map_token_commandsOf (d : Dialect) (script : List UInt8) :
    (d.commandsOf script).map (·.token) = script.filter d.contains := by
  induction script with
  | nil => rfl
  | cons byte script ih =>
      rw [commandsOf, List.filterMap_cons, List.filter_cons, contains]
      cases hfind : d.find? byte with
      | none => exact ih
      | some c => exact congrArg₂ List.cons (token_of_find? hfind) ih

/-! ## A command is added -/

theorem insert_of_free (h : c.token ∉ d.commands.map (·.token)) :
    ∃ d', d.insert c = .ok d' ∧ d'.commands = d.commands ++ [c] := by
  rw [insert]
  split
  · rename_i hfind
    rw [find?_eq_none_iff.mpr h] at hfind
    cases hfind
  · exact ⟨_, rfl, rfl⟩

theorem insert_of_taken (h : c.token ∈ d.commands.map (·.token)) :
    d.insert c = .error (.tokenTaken c.token) := by
  rw [insert]
  split
  · rfl
  · rename_i hfind
    exact absurd h (find?_eq_none_iff.mp hfind)

/-! ## All tokens in order -/

def bytes : List UInt8 := (List.range 256).map UInt8.ofNat

theorem mem_bytes (token : UInt8) : token ∈ bytes :=
  List.mem_map.mpr ⟨token.toNat, List.mem_range.mpr token.toNat_lt, UInt8.ofNat_toNat⟩

theorem bytes_sorted : bytes.Pairwise (· < ·) := by
  refine List.pairwise_map.mpr (List.pairwise_lt_range.imp_of_mem fun {a b} ha hb hlt => ?_)
  rw [UInt8.lt_iff_toNat_lt, UInt8.toNat_ofNat_of_lt' (List.mem_range.mp ha),
    UInt8.toNat_ofNat_of_lt' (List.mem_range.mp hb)]
  exact hlt

theorem tokens_sorted (d : Dialect) : d.tokens.Pairwise (· < ·) := bytes_sorted.filter _

theorem mem_tokens_iff : token ∈ d.tokens ↔ token ∈ d.commands.map (·.token) :=
  List.mem_filter.trans ((and_iff_right (mem_bytes token)).trans contains_iff)

/-- The bytes that are tokens are as many as the commands, since neither holds one twice. -/
theorem length_tokens (d : Dialect) : d.tokens.length = d.size := by
  have hnodup : d.tokens.Nodup := (tokens_sorted d).imp UInt8.ne_of_lt
  have hperm : d.tokens.Perm (d.commands.map (·.token)) :=
    (List.perm_ext_iff_of_nodup hnodup d.nodup).mpr fun _ => mem_tokens_iff
  exact hperm.length_eq.trans (List.length_map _)

end TapeScript.Dialect
