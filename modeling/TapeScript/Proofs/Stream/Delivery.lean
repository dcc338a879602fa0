import TapeScript.Stream.Source

/-! # What a source delivers

A reader who asks for portion after portion, up to the first that is empty, gets the content of
the source and then perhaps the failure behind it, however the portions are cut. -/

namespace TapeScript.Source

/-- The bytes that such a reader gets. A source that hands out empty portions delivers none. -/
def delivered (s : Source) : List UInt8 := if s.chunk = some 0 then [] else s.content

/-- What the reader is told instead of the end. -/
def broken? (s : Source) : Option String :=
  if s.chunk = some 0 then (s.breakdown.filter (·.left = 0)).map (·.text) else s.failure?

/-- One portion, and what is delivered after it. -/
inductive Portion (s : Source) : Except Fault (List UInt8) × Source → Prop where
  | broken {text : String} {t : Source} (hd : s.delivered = []) (hb : s.broken? = some text) :
      Portion s (.error (.stream text), t)
  | ended {t : Source} (hd : s.delivered = []) (hb : s.broken? = none) : Portion s (.ok [], t)
  | more {byte : UInt8} {bytes : List UInt8} {t : Source}
      (hd : s.delivered = byte :: bytes ++ t.delivered) (hb : s.broken? = t.broken?) :
      Portion s (.ok (byte :: bytes), t)

variable {s : Source} {b : Breakdown} {room n : Nat}

theorem delivered_of_chunk (hc : s.chunk ≠ some 0) :
    s.delivered = s.content ∧ s.broken? = s.failure? :=
  ⟨if_neg hc, if_neg hc⟩

theorem delivered_of_left {text : String} (h : s.breakdown = some ⟨0, text⟩) :
    s.delivered = [] ∧ s.broken? = some text := by
  by_cases hc : s.chunk = some 0
  · exact ⟨if_pos hc, by rw [broken?, if_pos hc, h]; rfl⟩
  · obtain ⟨hd, hb⟩ := delivered_of_chunk hc
    rw [hd, hb, content, failure?, h]
    exact ⟨rfl, rfl⟩

/-- A portion no longer than what is left before the break goes in front of the rest of the
content, and the failure stays behind it. -/
theorem content_advance (hn : ∀ b ∈ s.breakdown, n ≤ b.left) :
    s.content = s.rest.take n ++ (s.advance n).content ∧
      s.failure? = (s.advance n).failure? := by
  cases hb : s.breakdown with
  | none => simp [content, failure?, advance, hb, List.take_of_length_le]
  | some b =>
      have hle := hn b hb
      have hleft : b.left = n + (b.left - n) := by omega
      constructor
      · simp only [content, advance, hb, Option.map_some, Option.getD_some, List.length_take]
        rcases Nat.le_total n s.rest.length with hlt | hge
        · rw [Nat.min_eq_left hlt, ← List.take_add, ← hleft]
        · rw [List.drop_of_length_le hge, List.take_nil, List.append_nil,
            List.take_of_length_le hge, List.take_of_length_le (Nat.le_trans hge hle)]
      · have hiff : b.left ≤ s.rest.length ↔
            b.left - min n s.rest.length ≤ s.rest.length - n := by omega
        simp only [failure?, advance, hb, Option.map_some, List.length_take, List.length_drop,
          Option.filter_some, hiff]
        split <;> rfl

theorem portion_pos (h : ∀ b ∈ s.breakdown, b.left ≠ 0) (hc : s.chunk ≠ some 0)
    (hroom : 0 < room) : 0 < s.portion room := by
  have hchunk : 0 < s.chunk.getD room := by
    cases hs : s.chunk with
    | none => exact hroom
    | some n =>
        rw [hs] at hc
        exact Nat.pos_of_ne_zero fun hn => hc (congrArg some hn)
  have hleft : 0 < (s.breakdown.map (·.left)).getD room := by
    cases hs : s.breakdown with
    | none => exact hroom
    | some b => exact Nat.pos_of_ne_zero (h b hs)
  exact Nat.lt_min.mpr ⟨Nat.lt_min.mpr ⟨hroom, hchunk⟩, hleft⟩

theorem portion_le (hb : b ∈ s.breakdown) (room : Nat) : s.portion room ≤ b.left := by
  have hs : s.breakdown = some b := hb
  rw [portion, hs]
  exact Nat.min_le_right _ _

/-- Every call gets its portion, whatever it has room for. -/
theorem portion_read (s : Source) (hroom : 0 < room) : s.Portion (s.read room) := by
  rcases s.breaks_or with ⟨text, hb⟩ | hleft
  · obtain ⟨hd, hb'⟩ := delivered_of_left hb
    rw [read_of_broken hb]
    exact .broken hd hb'
  rw [read_of_left hleft]
  by_cases hc : s.chunk = some 0
  · have hp : s.portion room = 0 := by simp [portion, hc]
    have hnone : s.broken? = none := by
      rw [broken?, if_pos hc, Option.map_eq_none_iff, Option.filter_eq_none_iff]
      exact fun b hb => by simpa using hleft b hb
    rw [hp, List.take_zero]
    exact .ended (if_pos hc) hnone
  obtain ⟨hd, hb⟩ := delivered_of_chunk hc
  obtain ⟨hcontent, hfailure⟩ := content_advance (s := s) fun b hb => portion_le hb room
  have hpos := portion_pos hleft hc hroom
  cases hrest : s.rest.take (s.portion room) with
  | nil =>
      have hnil : s.rest = [] := by simpa [Nat.ne_of_gt hpos] using hrest
      have hnone : s.failure? = none := by
        rw [failure?, hnil, Option.map_eq_none_iff, Option.filter_eq_none_iff]
        exact fun b hb => by simpa using hleft b hb
      exact .ended (by rw [hd, content, hnil, List.take_nil]) (hb.trans hnone)
  | cons byte bytes =>
      obtain ⟨hd', hb'⟩ := delivered_of_chunk (s := s.advance (s.portion room)) hc
      rw [hrest, ← hd'] at hcontent
      exact .more (hd.trans hcontent) (hb.trans (hfailure.trans hb'.symm))

end TapeScript.Source
