import Mathlib.Data.List.Infix
import TapeScript.CommandLine.Console

/-! # Buffers in front of a console

Whatever is held back on the way, a console that works gets all bytes in the order in which they
were written. One that refuses every byte gets none, and to write and then empty the buffers
succeeds only if nothing was written. -/

namespace TapeScript.CommandLine

variable {σ : Type} {put : List UInt8 → σ → Except String σ} {C : List UInt8 → σ → Prop}
  {R : List UInt8 → Prop} {sent bytes : List UInt8} {capacity : Nat}

/-- What is put there always arrives, behind all that was sent before. -/
def Conveys (put : List UInt8 → σ → Except String σ) (C : List UInt8 → σ → Prop) : Prop :=
  ∀ ⦃sent s⦄, C sent s → ∀ bytes, ∃ s', put bytes s = .ok s' ∧ C (sent ++ bytes) s'

/-- What is put there arrives, behind all that was sent before, or is refused, and then `R` holds
of all that was sent. -/
def Forwards (R : List UInt8 → Prop) (put : List UInt8 → σ → Except String σ)
    (C : List UInt8 → σ → Prop) : Prop :=
  ∀ ⦃sent s⦄, C sent s → ∀ bytes,
    (∃ s', put bytes s = .ok s' ∧ C (sent ++ bytes) s') ∨
      ∃ text, put bytes s = .error text ∧ R (sent ++ bytes)

/-- To send more makes up for no refusal. -/
def Lasting (R : List UInt8 → Prop) : Prop := ∀ ⦃sent⦄, R sent → ∀ bytes, R (sent ++ bytes)

theorem lasting_false : Lasting fun _ => False := fun _ h _ => h

theorem lasting_ne_nil : Lasting (· ≠ []) := fun _ h _ hnil => h (List.append_eq_nil_iff.mp hnil).1

theorem Forwards.conveys (h : Forwards (fun _ => False) put C) : Conveys put C :=
  fun _ _ hs bytes => (h hs bytes).resolve_right fun ⟨_, _, hfalse⟩ => hfalse

namespace Console

/-- The console works, and shows just what was sent. -/
structure Shows (sent : List UInt8) (c : Console) : Prop where
  refusal : c.refusal = none
  shown : c.shown = sent

/-- The console refuses every byte, and none was sent. -/
structure Refuses (sent : List UInt8) (c : Console) : Prop where
  refusal : c.refusal ≠ none
  sent : sent = []

theorem forwards_shows : Forwards (fun _ => False) write Shows := by
  intro sent c h bytes
  refine .inl ⟨{ c with shown := c.shown ++ bytes }, ?_, h.refusal, ?_⟩
  · simp only [write, h.refusal]
  · rw [h.shown]

theorem forwards_refuses : Forwards (· ≠ []) write Refuses := by
  rintro _ c ⟨hrefusal, rfl⟩ bytes
  obtain ⟨text, htext⟩ := Option.ne_none_iff_exists'.mp hrefusal
  simp only [write, htext, List.nil_append]
  cases bytes with
  | nil => exact .inl ⟨c, rfl, hrefusal, rfl⟩
  | cons byte bytes => exact .inr ⟨text, rfl, List.cons_ne_nil byte bytes⟩

end Console

namespace Buffered

/-- What was sent has arrived behind the buffer, up to the bytes that are held. -/
def Carries (C : List UInt8 → σ → Prop) (sent : List UInt8) (b : Buffered σ) : Prop :=
  ∃ front, C front b.inner ∧ sent = front ++ b.held

theorem Carries.of_empty {s : σ} (h : C sent s) : Carries C sent ⟨s, []⟩ :=
  ⟨sent, h, (List.append_nil sent).symm⟩

theorem Carries.flush {b : Buffered σ} (hput : Forwards R put C) (h : Carries C sent b) :
    (∃ s, b.flush put = .ok ⟨s, []⟩ ∧ C sent s) ∨ ∃ text, b.flush put = .error text ∧ R sent := by
  obtain ⟨front, hfront, rfl⟩ := h
  rw [Buffered.flush]
  rcases hput hfront b.held with ⟨s, hs, hC⟩ | ⟨text, htext, hR⟩
  · exact .inl ⟨s, by rw [hs]; rfl, hC⟩
  · exact .inr ⟨text, by rw [htext]; rfl, hR⟩

theorem write_eq (put : List UInt8 → σ → Except String σ) (capacity : Nat) (bytes : List UInt8)
    (b : Buffered σ) :
    b.write put capacity bytes =
      (if capacity - b.held.length < bytes.length then b.flush put else .ok b).bind fun b =>
        if capacity ≤ bytes.length then (put bytes b.inner).map (⟨·, b.held⟩)
        else .ok ⟨b.inner, b.held ++ bytes⟩ := by
  by_cases hlt : capacity - b.held.length < bytes.length
  · simp only [write, if_pos hlt]
    cases b.flush put with
    | error text => rfl
    | ok b =>
        by_cases hle : capacity ≤ bytes.length
        · simp only [Except.bind, bind, if_pos hle]
          cases put bytes b.inner <;> rfl
        · simp only [Except.bind, bind, if_neg hle]
          rfl
  · simp only [write, if_neg hlt]
    by_cases hle : capacity ≤ bytes.length
    · simp only [Except.bind, bind, pure, Except.pure, if_pos hle]
      cases put bytes b.inner <;> rfl
    · simp only [Except.bind, bind, pure, Except.pure, if_neg hle]

/-- Room is made if the bytes do not fit behind those that are held. -/
theorem Carries.makeRoom {b : Buffered σ} (hput : Forwards R put C) (h : Carries C sent b)
    (capacity : Nat) (bytes : List UInt8) :
    (∃ b', (if capacity - b.held.length < bytes.length then b.flush put else .ok b) = .ok b' ∧
        Carries C sent b' ∧ (capacity ≤ bytes.length → 0 < capacity → b'.held = [])) ∨
      ∃ text, (if capacity - b.held.length < bytes.length then b.flush put else .ok b) =
        .error text ∧ R sent := by
  by_cases hlt : capacity - b.held.length < bytes.length
  · rw [if_pos hlt]
    rcases h.flush hput with ⟨s, hs, hC⟩ | hrefused
    · exact .inl ⟨_, hs, .of_empty hC, fun _ _ => rfl⟩
    · exact .inr hrefused
  · rw [if_neg hlt]
    refine .inl ⟨b, rfl, h, fun hle hpos => ?_⟩
    apply List.eq_nil_of_length_eq_zero
    omega

/-- Bytes go past the buffer only if it holds nothing. -/
theorem forwards_write (hput : Forwards R put C) (hR : Lasting R) (hcapacity : 0 < capacity) :
    Forwards R (write put capacity) (Carries C) := by
  intro sent b h bytes
  rw [write_eq]
  rcases h.makeRoom hput capacity bytes with
    ⟨b', hb', ⟨front, hfront, hsent⟩, hempty⟩ | ⟨text, htext, hrefused⟩
  · rw [hb', Except.bind]
    by_cases hle : capacity ≤ bytes.length
    · rw [if_pos hle]
      rw [hempty hle hcapacity, List.append_nil] at hsent
      subst hsent
      rcases hput hfront bytes with ⟨s, hs, hC⟩ | ⟨text, htext, hrefused⟩
      · refine .inl ⟨⟨s, b'.held⟩, by rw [hs, Except.map], sent ++ bytes, hC, ?_⟩
        rw [hempty hle hcapacity, List.append_nil]
      · exact .inr ⟨text, by rw [htext, Except.map], hrefused⟩
    · rw [if_neg hle]
      refine .inl ⟨⟨b'.inner, b'.held ++ bytes⟩, rfl, front, hfront, ?_⟩
      rw [hsent, List.append_assoc]
  · rw [htext]
    exact .inr ⟨text, rfl, hR hrefused bytes⟩

end Buffered

theorem LineBuffer.unfinished_suffix (bytes : List UInt8) :
    (bytes.reverse.takeWhile (!isLineEnd ·)).reverse <:+ bytes := by
  rw [← List.reverse_prefix, List.reverse_reverse]
  exact List.takeWhile_prefix _

section Console

variable {C : List UInt8 → Console → Prop} (hC : Forwards R Console.write C) (hR : Lasting R)
include hC hR

namespace LineBuffer

theorem forwards_write : Forwards R write (Buffered.Carries C) := by
  intro sent b h bytes
  have hbuffer : Forwards R (Buffered.write Console.write capacity) (Buffered.Carries C) :=
    Buffered.forwards_write hC hR (by decide)
  have hsplit := List.suffix_iff_eq_append.mp (unfinished_suffix bytes)
  simp only [write]
  generalize (bytes.reverse.takeWhile (!isLineEnd ·)).reverse = unfinished at hsplit ⊢
  generalize bytes.take (bytes.length - unfinished.length) = lines at hsplit ⊢
  cases lines with
  | nil => exact hbuffer h bytes
  | cons byte lines =>
      rw [← hsplit, ← List.append_assoc]
      simp only [List.isEmpty_cons, bind, Except.bind, Bool.false_eq_true, if_false]
      rcases h.flush hC with ⟨c, hc, hsent⟩ | ⟨text, htext, hrefused⟩
      · simp only [hc]
        rcases hC hsent (byte :: lines) with ⟨c', hc', hsent'⟩ | ⟨text, htext, hrefused⟩
        · simp only [hc']
          exact hbuffer (.of_empty hsent') unfinished
        · simp only [htext]
          exact .inr ⟨text, rfl, hR hrefused unfinished⟩
      · simp only [htext]
        exact .inr ⟨text, rfl, hR (hR hrefused (byte :: lines)) unfinished⟩

end LineBuffer

namespace Outlet

theorem forwards_write : Forwards R write (Buffered.Carries (Buffered.Carries C)) :=
  Buffered.forwards_write (LineBuffer.forwards_write hC hR) hR (by decide)

theorem close_or {o : Outlet} (h : Buffered.Carries (Buffered.Carries C) sent o) :
    (∃ c, o.close = .ok c ∧ C sent c) ∨ ∃ text, o.close = .error text ∧ R sent := by
  simp only [close, bind, Except.bind]
  rcases h.flush (LineBuffer.forwards_write hC hR) with ⟨b, hb, hlines⟩ | ⟨text, htext, hrefused⟩
  · simp only [hb]
    rcases hlines.flush hC with ⟨c, hc, hsent⟩ | ⟨text, htext, hrefused⟩
    · exact .inl ⟨c, by simp only [hc]; rfl, hsent⟩
    · exact .inr ⟨text, by simp only [htext], hrefused⟩
  · exact .inr ⟨text, by simp only [htext], hrefused⟩

end Outlet

end Console

namespace Outlet

/-- The console works, and what was sent is all shown or on its way. -/
abbrev Carries : List UInt8 → Outlet → Prop := Buffered.Carries (Buffered.Carries Console.Shows)

/-- The console refuses every byte, and what was sent is all held back. -/
abbrev Withholds : List UInt8 → Outlet → Prop :=
  Buffered.Carries (Buffered.Carries Console.Refuses)

theorem conveys_write : Conveys write Carries :=
  (forwards_write Console.forwards_shows lasting_false).conveys

variable {o : Outlet}

theorem Carries.close (h : Carries sent o) : ∃ c, o.close = .ok c ∧ c.Shows sent :=
  (close_or Console.forwards_shows lasting_false h).resolve_right fun ⟨_, _, hfalse⟩ => hfalse

theorem Carries.finallyShown (h : Carries sent o) : o.finallyShown = sent := by
  obtain ⟨c, hc, hshows⟩ := h.close
  rw [Outlet.finallyShown, hc]
  exact hshows.shown

theorem Withholds.write (h : Withholds sent o) (bytes : List UInt8) :
    (∃ o', o.write bytes = .ok o' ∧ Withholds (sent ++ bytes) o') ∨
      ∃ text, o.write bytes = .error text ∧ sent ++ bytes ≠ [] :=
  forwards_write Console.forwards_refuses lasting_ne_nil h bytes

theorem Withholds.close (h : Withholds sent o) :
    (∃ c, o.close = .ok c ∧ sent = []) ∨ ∃ text, o.close = .error text ∧ sent ≠ [] :=
  (close_or Console.forwards_refuses lasting_ne_nil h).imp_left fun ⟨c, hc, hrefuses⟩ =>
    ⟨c, hc, hrefuses.sent⟩

end Outlet

end TapeScript.CommandLine
