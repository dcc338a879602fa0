import Mathlib.Logic.Function.Iterate
import Mathlib.Order.Monotone.Basic
import TapeScript.Proofs.Engine.Requests
import TapeScript.Proofs.Stream.Delivery

/-! # Reading byte by byte

A read hands out the next byte of the content, or it hands out none and only the call is
counted. As long as every read gets its byte a device cannot tell apart two sources that begin
with the same bytes. -/

namespace TapeScript

open Outcome

namespace Source

/-! ## What reading leaves behind -/

/-- The source after so many bytes were read from it, one a call. -/
def after (s : Source) (n : Nat) : Source :=
  { s with
    rest := s.rest.drop n
    breakdown := s.breakdown.map fun b => { b with left := b.left - n }
    taken := s.taken + n
    calls := s.interrupts.callsAfter^[n] s.calls }

/-- The source after a call that hands out nothing. -/
def missed (s : Source) : Source := { s with calls := s.interrupts.callsAfter s.calls }

variable {fresh s : Source} {m n : Nat}

@[simp] theorem after_zero (s : Source) : s.after 0 = s := by
  simp [after]

theorem after_succ (s : Source) (n : Nat) : s.after (n + 1) = (s.after n).after 1 := by
  simp [after, Function.iterate_succ_apply', Nat.add_assoc, Nat.sub_sub, Function.comp_def]

theorem delivered_after (s : Source) (n : Nat) : (s.after n).delivered = s.delivered.drop n := by
  by_cases hc : s.chunk = some 0
  · simp [delivered, after, hc]
  · cases hb : s.breakdown with
    | none => simp [delivered, content, after, hc, hb, List.take_of_length_le]
    | some b => simp [delivered, content, after, hc, hb, List.drop_take]

theorem advance_of_take_eq_nil (h : s.rest.take n = []) : s.advance n = s := by
  have hrest : s.rest.drop n = s.rest := by
    have hsplit := List.take_append_drop n s.rest
    rwa [h, List.nil_append] at hsplit
  simp [advance, h, hrest]

/-! ## One read -/

theorem readByte_of_delivered {byte : UInt8} {bytes : List UInt8}
    (h : s.delivered = byte :: bytes) : s.readByte = (.ok (some byte), s.after 1) := by
  have hchunk : s.chunk ≠ some 0 := by
    intro hc
    simp [delivered, hc] at h
  have hleft : ∀ b ∈ s.breakdown, b.left ≠ 0 := by
    rcases s.breaks_or with ⟨text, hb⟩ | hleft
    · simp [(delivered_of_left hb).1] at h
    · exact hleft
  have hportion : s.portion 1 = 1 := by
    have hle : s.portion 1 ≤ 1 := Nat.le_trans (Nat.min_le_left _ _) (Nat.min_le_left _ _)
    have hpos := portion_pos hleft hchunk Nat.one_pos
    omega
  have hprefix : byte :: bytes <+: s.rest := by
    rw [← h, (delivered_of_chunk hchunk).1, content]
    exact List.take_prefix _ _
  obtain ⟨more, hrest⟩ := hprefix
  rw [readByte_of_left hleft, hportion]
  simp [advance, after, ← hrest]

theorem readByte_after {byte : UInt8} {bytes : List UInt8}
    (h : (s.after n).delivered = byte :: bytes) :
    (s.after n).readByte = (.ok (some byte), s.after (n + 1)) := by
  rw [after_succ]
  exact readByte_of_delivered h

theorem readByte_of_exhausted (h : s.delivered = []) :
    (∀ byte, s.readByte.1 ≠ .ok (some byte)) ∧ s.readByte.2 = s.missed := by
  rcases s.breaks_or with ⟨text, hb⟩ | hleft
  · rw [readByte_of_broken hb]
    exact ⟨nofun, rfl⟩
  · have hportion := s.portion_read Nat.one_pos
    rw [read_of_left hleft] at hportion
    cases htake : s.rest.take (s.portion 1) with
    | nil =>
        rw [readByte_of_left hleft, htake]
        refine ⟨fun byte h => ?_, advance_of_take_eq_nil (s := s.missed) htake⟩
        cases h
    | cons byte bytes =>
        rw [htake] at hportion
        cases hportion with
        | more hd _ =>
            rw [h] at hd
            cases hd

/-- What comes next is common to sources that share more bytes than were read. -/
theorem exists_delivered_after {input input' : Source} {byte : UInt8} {bytes : List UInt8}
    (hsame : input.delivered.take m <+: input'.delivered) (hn : n < m)
    (h : (input.after n).delivered = byte :: bytes) :
    ∃ more, (input'.after n).delivered = byte :: more := by
  rw [delivered_after] at h ⊢
  have hbyte : (input.delivered.take m)[n]? = some byte := by
    rw [List.getElem?_take_of_lt hn, ← List.head?_drop, h]
    rfl
  obtain ⟨more, hmore⟩ := hsame
  apply List.head?_eq_some_iff.mp
  rw [List.head?_drop, ← hmore, List.getElem?_append_left (List.getElem?_eq_some_iff.mp hbyte).1]
  exact hbyte

/-! ## Reads that are not answered -/

/-- Since the source was as given a call has handed out nothing, or more than `m` bytes were
handed out. -/
def Strays (fresh : Source) (m : Nat) (s : Source) : Prop :=
  ∃ bytes calls, (bytes < calls ∨ m < bytes) ∧ s.interrupts = fresh.interrupts ∧
    s.taken = fresh.taken + bytes ∧ s.calls = fresh.interrupts.callsAfter^[calls] fresh.calls

theorem Strays.readByte (h : fresh.Strays m s) : fresh.Strays m s.readByte.2 := by
  obtain ⟨bytes, calls, hor, hinterrupts, htaken, hcalls⟩ := h
  have hcount : s.interrupts.callsAfter s.calls =
      fresh.interrupts.callsAfter^[calls + 1] fresh.calls := by
    rw [Function.iterate_succ_apply', hinterrupts, hcalls]
  cases hd : s.delivered with
  | nil =>
      rw [(readByte_of_exhausted hd).2]
      exact ⟨bytes, calls + 1, by omega, hinterrupts, htaken, hcount⟩
  | cons byte more =>
      rw [readByte_of_delivered hd]
      refine ⟨bytes + 1, calls + 1, by omega, hinterrupts, ?_, hcount⟩
      simp [after, htaken, Nat.add_assoc]

theorem strays_missed (fresh : Source) (m n : Nat) : fresh.Strays m (fresh.after n).missed :=
  ⟨n, n + 1, .inl (Nat.lt_succ_self n), rfl, rfl,
    (Function.iterate_succ_apply' fresh.interrupts.callsAfter n fresh.calls).symm⟩

theorem after_or_strays (fresh : Source) (m n : Nat) :
    (∃ k, (fresh.after n).readByte.2 = fresh.after k) ∨
      fresh.Strays m (fresh.after n).readByte.2 := by
  cases hd : (fresh.after n).delivered with
  | nil =>
      rw [(readByte_of_exhausted hd).2]
      exact .inr (fresh.strays_missed m n)
  | cons byte bytes => exact .inl ⟨n + 1, by rw [readByte_after hd]⟩

theorem strays_after (h : m < n) : fresh.Strays m (fresh.after n) :=
  ⟨n, n, .inr h, rfl, rfl, rfl⟩

theorem strictMono_calls (i : Interrupts) (calls : Nat) :
    StrictMono fun n => i.callsAfter^[n] calls := by
  apply strictMono_nat_of_lt_succ
  intro n
  rw [Function.iterate_succ_apply']
  exact i.lt_callsAfter _

/-- If every call got its byte, then the source strays only beyond the bound. -/
theorem Strays.lt_of_after (h : fresh.Strays m (fresh.after n)) : m < n := by
  obtain ⟨bytes, calls, hor, -, htaken, hcalls⟩ := h
  have hbytes : n = bytes := Nat.add_left_cancel htaken
  have hn : n = calls := (strictMono_calls fresh.interrupts fresh.calls).injective hcalls
  omega

/-! ## Reading up to a break -/

/-- The source breaks off as soon as so many bytes in all were taken. -/
def BreaksAt (total : Nat) (text : String) (s : Source) : Prop :=
  ∃ left, s.breakdown = some ⟨left, text⟩ ∧ s.taken + left = total

section BreaksAt

variable {total : Nat} {text : String}

theorem BreaksAt.readByte (h : s.BreaksAt total text) : s.readByte.2.BreaksAt total text := by
  obtain ⟨left, hb, htotal⟩ := h
  cases hd : s.delivered with
  | nil =>
      rw [(readByte_of_exhausted hd).2]
      exact ⟨left, hb, htotal⟩
  | cons byte bytes =>
      cases left with
      | zero =>
          rw [(delivered_of_left hb).1] at hd
          cases hd
      | succ left =>
          rw [readByte_of_delivered hd]
          refine ⟨left, by simp [after, hb], ?_⟩
          simp only [after]
          omega

theorem BreaksAt.readByte_eq (h : s.BreaksAt total text) (htaken : s.taken = total) :
    s.readByte = (.error (.stream text), s.missed) := by
  obtain ⟨left, hb, htotal⟩ := h
  obtain rfl : left = 0 := by omega
  exact readByte_of_broken hb

end BreaksAt

end Source

/-! ## Devices that read the same -/

namespace Device

variable {d : Device}

/-- A request that reads nothing does not depend on the source. -/
theorem perform_withSource {request : Request} (h : request ≠ .receive) (d : Device)
    (source : Source) :
    perform request { d with source } =
      ((perform request d).1, { (perform request d).2 with source }) := by
  rcases request.receive_or_send_or with rfl | ⟨byte, rfl⟩ | htape
  · exact absurd rfl h
  · rw [perform_send, perform_send]
    cases d.sink.write byte <;> rfl
  · obtain ⟨answer, tape, hp⟩ := htape d.tape
    have hd : perform request d = (answer, ⟨tape, d.source, d.sink⟩) := hp _ _
    rw [hp, hd]

theorem source_perform {request : Request} (h : request ≠ .receive) (d : Device) :
    (d.perform request).2.source = d.source := by
  have hsame := perform_withSource h d d.source
  exact congrArg (fun r => r.2.source) hsame

/-- At most `m` bytes were read, and these from either source. Nothing else differs. -/
def ReadsAlike (input input' : Source) (m : Nat) (d d' : Device) : Prop :=
  ∃ n, n ≤ m ∧ d.source = input.after n ∧ d' = { d with source := input'.after n }

end Device

namespace Action

open Device

variable {input input' : Source} {m : Nat} {d d' : Device} {action : Action}

/-- Every byte that the action asks for is handed out. -/
def Supplied : Action → Device → Prop
  | done, _ => True
  | fail _, _ => True
  | ask request next, d =>
    (request = .receive → ∃ byte, d.source.readByte.1 = .ok (some byte)) ∧
      (next (d.perform request).1).Supplied (d.perform request).2

theorem supplied_ask {request : Request} {next : Except Fault request.Answer → Action} :
    (ask request next).Supplied d ↔
      (request = .receive → ∃ byte, d.source.readByte.1 = .ok (some byte)) ∧
        (next (d.perform request).1).Supplied (d.perform request).2 :=
  Iff.rfl

theorem run_strays (h : input.Strays m d.source) (action : Action) :
    input.Strays m (action.run d).state.source :=
  action.run_keeps (P := fun d => input.Strays m d.source)
    (perform_keeps_source fun _ => Source.Strays.readByte) h

/-- An action that is supplied reads its bytes one a call. -/
theorem Supplied.exists_after (hs : action.Supplied d)
    (h : ∃ n, d.source = input.after n) : ∃ n, (action.run d).state.source = input.after n := by
  induction action generalizing d with
  | done => exact h
  | fail cause => exact h
  | ask request next ih =>
      obtain ⟨hbyte, hnext⟩ := supplied_ask.mp hs
      rw [run_ask]
      refine ih _ hnext ?_
      by_cases hreceive : request = .receive
      · subst hreceive
        obtain ⟨byte, hbyte⟩ := hbyte rfl
        obtain ⟨n, hn⟩ := h
        rw [hn] at hbyte
        rw [perform_receive, hn]
        cases hd : (input.after n).delivered with
        | nil => exact absurd hbyte ((Source.readByte_of_exhausted hd).1 byte)
        | cons first more => exact ⟨n + 1, by rw [Source.readByte_after hd]⟩
      · have hkeeps := source_perform hreceive d
        exact hkeeps ▸ h

theorem supplied_or_strays (h : ∃ n, d.source = input.after n) (action : Action) (m : Nat) :
    action.Supplied d ∨ input.Strays m (action.run d).state.source := by
  induction action generalizing d with
  | done => exact .inl trivial
  | fail cause => exact .inl trivial
  | ask request next ih =>
      rw [supplied_ask, run_ask]
      by_cases hreceive : request = .receive
      · subst hreceive
        obtain ⟨n, hn⟩ := h
        rw [perform_receive, hn]
        cases hd : (input.after n).delivered with
        | nil =>
            refine .inr (run_strays ?_ _)
            rw [(Source.readByte_of_exhausted hd).2]
            exact Source.strays_missed input m n
        | cons byte bytes =>
            rw [Source.readByte_after hd]
            exact (ih _ ⟨n + 1, rfl⟩).imp_left fun hs => ⟨fun _ => ⟨byte, rfl⟩, hs⟩
      · obtain ⟨n, hn⟩ := h
        have hafter := (source_perform hreceive d).trans hn
        exact (ih _ ⟨n, hafter⟩).imp_left fun hs => ⟨fun heq => absurd heq hreceive, hs⟩

/-- As long as all bytes that are read are common to both sources, an action does the same. -/
theorem run_readsAlike (hsame : input.delivered.take m <+: input'.delivered)
    (h : ReadsAlike input input' m d d') (action : Action) :
    Rel (ReadsAlike input input' m) (ReadsAlike input input' m) (action.run d) (action.run d') ∨
      input.Strays m (action.run d).state.source := by
  induction action generalizing d d' with
  | done => exact .inl (.ok h)
  | fail cause => exact .inl (.fault h)
  | ask request next ih =>
      obtain ⟨n, hn, hsource, rfl⟩ := h
      rw [run_ask, run_ask]
      by_cases hreceive : request = .receive
      · subst hreceive
        rw [perform_receive, perform_receive, hsource]
        cases hd : (input.after n).delivered with
        | nil =>
            refine .inr (run_strays ?_ _)
            rw [(Source.readByte_of_exhausted hd).2]
            exact Source.strays_missed input m n
        | cons byte bytes =>
            rw [Source.readByte_after hd]
            -- The byte is common to both sources as long as fewer than `m` were read.
            by_cases hlt : n < m
            · obtain ⟨more, hd'⟩ := Source.exists_delivered_after hsame hlt hd
              rw [Source.readByte_after hd']
              exact ih _ ⟨n + 1, hlt, rfl, rfl⟩
            · have hm : m < n + 1 := by omega
              exact .inr (run_strays (Source.strays_after hm) _)
      · have hkeeps := source_perform hreceive d
        rw [perform_withSource hreceive d (input'.after n)]
        exact ih _ ⟨n, hn, hkeeps.trans hsource, rfl⟩

end Action

end TapeScript
