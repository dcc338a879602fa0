import TapeScript.Command

/-! The commands that a script may use: the built-in ones and extensions, no two with
the same token. Bytes that are no token of the dialect mean nothing. -/

namespace TapeScript

structure Dialect where
  commands : List Command
  nodup : (commands.map (·.token)).Nodup

namespace Dialect

def builtin : Dialect := ⟨Command.builtins, by decide⟩

def find? (d : Dialect) (token : UInt8) : Option Command :=
  d.commands.find? (·.token == token)

def contains (d : Dialect) (token : UInt8) : Bool := (d.find? token).isSome

def size (d : Dialect) : Nat := d.commands.length

def isEmpty (d : Dialect) : Bool := d.commands.isEmpty

/-- All tokens, in ascending order. -/
def tokens (d : Dialect) : List UInt8 :=
  ((List.range 256).map UInt8.ofNat).filter d.contains

theorem find?_eq_none_iff {d : Dialect} {token : UInt8} :
    d.find? token = none ↔ token ∉ d.commands.map (·.token) := by
  simp [find?, List.find?_eq_none]

/-- Adds a command at the end, unless its token is taken. -/
def insert (d : Dialect) (c : Command) : Except Fault Dialect :=
  match h : d.find? c.token with
  | some _ => .error (.tokenTaken c.token)
  | none => .ok
    { commands := d.commands ++ [c]
      nodup := by
        have := find?_eq_none_iff.mp h
        rw [List.map_append, List.nodup_append]
        refine ⟨d.nodup, by simp, ?_⟩
        intro a ha b hb
        rw [List.map_singleton, List.mem_singleton] at hb
        exact fun he => this (hb ▸ he ▸ ha) }

/-- The built-in commands and then the extensions, in order. -/
def ofExtensions (extensions : List Command) : Except Fault Dialect :=
  extensions.foldlM insert builtin

/-- The commands that a script names, in order. -/
def commandsOf (d : Dialect) (script : List UInt8) : List Command :=
  script.filterMap d.find?

end Dialect

end TapeScript
