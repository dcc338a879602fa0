import TapeScript.Proofs.Builtin
import TapeScript.Proofs.Engine.Requests
import TapeScript.Proofs.Stream.Delivery

/-! # The framing of streams

A stream holds data and failures, and it is framed: cut into portions, and with calls that are
interrupted. No request to a device sees the frame. -/

namespace TapeScript

/-! ## Streams without their frame -/

/-- The same source, which hands out all that is asked for and interrupts no call. -/
def Source.plain (s : Source) : Source :=
  { rest := s.rest, breakdown := s.breakdown, taken := s.taken }

/-- The same sink, which interrupts no call. One that never fills up has nothing to refuse. -/
def Sink.plain (s : Sink) : Sink :=
  { accepted := s.accepted
    capacity := s.capacity
    refusal := if s.capacity.isSome then s.refusal else .acceptNothing
    flushError := s.flushError
    flushes := s.flushes }

def Device.plain (d : Device) : Device := ⟨d.tape, d.source.plain, d.sink.plain⟩

@[simp] theorem Sink.plain_plain (s : Sink) : s.plain.plain = s.plain := by
  obtain ⟨accepted, _ | capacity, refusal, flushError, interrupts, calls, flushes⟩ := s <;> rfl

@[simp] theorem Device.plain_plain (d : Device) : d.plain.plain = d.plain := by
  simp only [plain, Source.plain, Sink.plain_plain]

/-- Nothing was handed out yet, and the source does not break off. -/
structure Source.Intact (s : Source) : Prop where
  breakdown : s.breakdown = none
  taken : s.taken = 0

/-- Nothing was accepted yet, and the sink fails neither a write nor a flush. -/
structure Sink.Intact (s : Sink) : Prop where
  accepted : s.accepted = #[]
  capacity : s.capacity = none
  flushError : s.flushError = none
  flushes : s.flushes = 0

theorem Source.Intact.plain_eq {s : Source} (h : s.Intact) : s.plain = .ofBytes s.rest := by
  rw [plain, h.breakdown, h.taken]
  rfl

theorem Sink.Intact.plain_eq {s : Sink} (h : s.Intact) : s.plain = {} := by
  rw [plain, h.accepted, h.capacity, h.flushError, h.flushes]
  rfl

/-! ## Reading and writing -/

namespace Source

variable {s : Source}

theorem delivered_plain (hc : s.chunk ≠ some 0) :
    s.plain.delivered = s.delivered ∧ s.plain.broken? = s.broken? := by
  obtain ⟨hd, hb⟩ := delivered_of_chunk hc
  obtain ⟨hd', hb'⟩ := delivered_of_chunk (s := s.plain) (Option.some_ne_none 0).symm
  rw [hd, hb, hd', hb']
  exact ⟨rfl, rfl⟩

/-- With room for one byte, portions of one or more bytes are all the same. -/
theorem portion_one (hc : s.chunk ≠ some 0) : s.portion 1 = s.plain.portion 1 := by
  have hroom : min 1 (s.chunk.getD 1) = 1 := by
    cases hs : s.chunk with
    | none => rfl
    | some n =>
        have hn : n ≠ 0 := fun h => hc (h ▸ hs)
        exact Nat.min_eq_left (Nat.pos_of_ne_zero hn)
  simp only [portion, hroom]
  rfl

theorem readByte_plain (hc : s.chunk ≠ some 0) :
    s.readByte.1 = s.plain.readByte.1 ∧ s.readByte.2.plain = s.plain.readByte.2.plain ∧
      s.readByte.2.chunk = s.chunk := by
  rcases s.breaks_or with ⟨text, hb⟩ | hleft
  · have hplain : s.plain.breakdown = some ⟨0, text⟩ := hb
    rw [readByte_of_broken hb, readByte_of_broken hplain]
    exact ⟨rfl, rfl, rfl⟩
  · have hplain : ∀ b ∈ s.plain.breakdown, b.left ≠ 0 := hleft
    rw [readByte_of_left hleft, readByte_of_left hplain, portion_one hc]
    exact ⟨rfl, rfl, rfl⟩

end Source

namespace Sink

theorem isFull_plain (s : Sink) : s.plain.isFull = s.isFull := rfl

theorem refusal_plain {s : Sink} (h : s.isFull) : s.plain.refusal = s.refusal := by
  obtain ⟨accepted, _ | n, refusal, flushError, interrupts, calls, flushes⟩ := s
  · cases h
  · rfl

theorem write_plain (s : Sink) (byte : UInt8) :
    (s.write byte).map plain = (s.plain.write byte).map plain := by
  rw [write_eq, write_eq, isFull_plain]
  by_cases hfull : s.isFull
  · rw [if_pos hfull, if_pos hfull, refusal_plain hfull]
    exact congrArg (Outcome.fault _) (plain_plain s).symm
  · rw [if_neg hfull, if_neg hfull]
    exact congrArg (fun t : Sink => Outcome.ok (t.accept byte)) (plain_plain s).symm

theorem flush_plain (s : Sink) : s.flush.map plain = s.plain.flush.map plain := by
  obtain ⟨accepted, _ | capacity, refusal, _ | text, interrupts, calls, flushes⟩ := s <;> rfl

end Sink

/-! ## Requests -/

namespace Device

/-- The same tape and the same data, under frames that hand out bytes. -/
structure SameData (d d' : Device) : Prop where
  plain : d.plain = d'.plain
  chunk : d.source.chunk ≠ some 0
  chunk' : d'.source.chunk ≠ some 0

theorem perform_plain {d : Device} (hc : d.source.chunk ≠ some 0) (request : Request) :
    (d.perform request).1 = (d.plain.perform request).1 ∧
      (d.perform request).2.plain = (d.plain.perform request).2.plain ∧
      (d.perform request).2.source.chunk = d.source.chunk := by
  obtain ⟨tape, source, sink⟩ := d
  rcases request.receive_or_send_or with rfl | ⟨byte, rfl⟩ | htape
  · obtain ⟨hanswer, hplain, hchunk⟩ := Source.readByte_plain hc
    refine ⟨hanswer, ?_, hchunk⟩
    simp only [perform_receive, Device.plain, hplain, sink.plain_plain]
  · have hwrite := sink.write_plain byte
    simp only [perform_send, Device.plain]
    generalize sink.write byte = o, sink.plain.write byte = o' at hwrite
    cases Outcome.map_eq_map_iff.mp hwrite with
    | ok ht => exact ⟨rfl, congrArg (Device.mk _ _) ht, rfl⟩
    | fault ht => exact ⟨rfl, congrArg (Device.mk _ _) ht, rfl⟩
  · obtain ⟨answer, tape', hp⟩ := htape tape
    simp only [Device.plain, hp, sink.plain_plain, true_and, and_true]
    rfl

/-- Requests are answered from the data alone. -/
theorem SameData.perform {d d' : Device} (h : d.SameData d') (request : Request) :
    (d.perform request).1 = (d'.perform request).1 ∧
      (d.perform request).2.SameData (d'.perform request).2 := by
  obtain ⟨hanswer, hplain, hchunk⟩ := perform_plain h.chunk request
  obtain ⟨hanswer', hplain', hchunk'⟩ := perform_plain h.chunk' request
  rw [← h.plain] at hanswer' hplain'
  exact ⟨hanswer.trans hanswer'.symm, hplain.trans hplain'.symm, hchunk ▸ h.chunk,
    hchunk' ▸ h.chunk'⟩

theorem SameData.flush {d d' : Device} (h : d.SameData d') :
    Outcome.Rel SameData SameData d.flush d'.flush := by
  obtain ⟨hplain, hc, hc'⟩ := h
  obtain ⟨tape, source, sink⟩ := d
  obtain ⟨tape', source', sink'⟩ := d'
  obtain ⟨htape, hsource, hsink⟩ := Device.mk.inj hplain
  have hflush : sink.flush.map Sink.plain = sink'.flush.map Sink.plain := by
    rw [sink.flush_plain, sink'.flush_plain, hsink]
  obtain rfl : tape = tape' := htape
  have hsame {t t' : Sink} (ht : t.plain = t'.plain) :
      SameData ⟨tape, source, t⟩ ⟨tape, source', t'⟩ :=
    ⟨congrArg₂ (Device.mk tape) hsource ht, hc, hc'⟩
  simp only [Device.flush]
  generalize sink.flush = o, sink'.flush = o' at hflush
  cases Outcome.map_eq_map_iff.mp hflush with
  | ok ht => exact .ok (hsame ht)
  | fault ht => exact .fault (hsame ht)

end Device

end TapeScript
