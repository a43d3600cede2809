/-
  Runs of the shared-memory ring.

  The steps of the consumer keep the invariant as those of the producer do, and from it follow the
  four promises of the protocol (`ring_protocol`): an index is in one place at a time, no message
  is overwritten before it is copied, the messages are copied in order, and the programs finish
  unless they go on.

  The progress part goes by the FIFOs: a program that cannot go on waits at an empty one
  (`producer_goes`, `consumer_goes`), and both cannot wait at once, because an index that is not
  free is in some queue or in somebody's hands (`not_both_wait`).  For this `n` has to be at least
  1.

  The last section runs the two programs in a given order of steps, so that a run with all kinds
  of steps can be computed: `halfway` has the consumer inside a `memcpy` while the producer takes
  the index that has come back, and `theRest` brings both programs to their ends.
-/
import OsCodes.Ipc.RingLaw

namespace OsCodes.Ring

open Fifo (Carries)

section Steps

variable {n N : Nat} {s s' : State} {sent back lost : List Nat}

namespace Inv

/-! ## Steps of the consumer -/

/-- **A step of the consumer** from one place in its loop to another. -/
theorem consumerLoop (h : Inv n N s sent back lost) {t : State} {sent' back' : List Nat}
    (hproducer : t.producer = s.producer) (hwritten : t.written = s.written)
    (hslots : t.slots = s.slots) (hconfirm : t.confirm = s.confirm)
    (hold : s.consumer.past = false) (hnew : t.consumer.past = false)
    (hat : t.consumer.At N t.copied.length)
    (hsound : (view n t sent' back' lost).Sound (List.range n))
    (hcount : (view n t sent' back' lost).count = (view n s sent back lost).count)
    (hw : Carries bytesOf t.wfifo sent' ∧ t.wfifo.reader = s.wfifo.reader ∧
      t.wfifo.writer = s.wfifo.writer)
    (hr : Carries bytesOf t.rfifo back' ∧ t.rfifo.reader = s.rfifo.reader ∧
      t.rfifo.writer = s.rfifo.writer)
    (hstr : ∀ i j str, t.consumer = .copying i j str → s.slots j = str) :
    Inv n N t sent' back' lost := by
  have hclosed : t.consumer.closed = s.consumer.closed := by
    rw [Consumer.closed_of_past hold, Consumer.closed_of_past hnew]
  have hpast := h.not_past hold
  refine
    { sound := hsound, written := ?_, wfifo := hw.1, rfifo := hr.1, producer := ?_,
      consumer := hat, ends := ⟨?_, ?_, ?_⟩, str := ?_, lost := ?_, last := ?_, confirm := ?_ }
  · rw [hwritten, hcount]
    exact h.written
  · rw [hproducer, hwritten]
    exact h.producer
  · rw [hclosed, hproducer, hw.2.1, hw.2.2]
    exact h.ends.wfifo
  · rw [hclosed, hproducer, hr.2.1, hr.2.2]
    exact h.ends.rfifo
  · rw [hclosed, hproducer, hconfirm]
    exact h.ends.confirm
  · rw [hslots]
    exact hstr
  · rw [hproducer]
    exact h.lost
  · rw [hproducer, hpast]
    intro hfalse
    cases hfalse
  · have hbytes := h.confirm
    rw [if_neg (fun hc => by rw [hold] at hc; cases hc.1)] at hbytes
    rw [hconfirm, hbytes, if_neg (fun hc => by rw [hnew] at hc; cases hc.1)]

/-- **The consumer passes an index on**, or none. -/
theorem consumerPass (h : Inv n N s sent back lost) {c : Consumer} {q r : Fifo IntByte}
    {sent' back' : List Nat} (hold : s.consumer.past = false) (hc : c.past = false)
    (hat : c.At N s.copied.length)
    (hpending : c.pre ++ sent' ++ s.producer.post = s.consumer.pre ++ sent ++ s.producer.post)
    (hfree : (c.post ++ back' ++ s.producer.pre ++ (s.producer.unsent n ++ lost)).Perm
      (s.consumer.post ++ back ++ s.producer.pre ++ (s.producer.unsent n ++ lost)))
    (hq : Carries bytesOf q sent' ∧ q.reader = s.wfifo.reader ∧ q.writer = s.wfifo.writer)
    (hr : Carries bytesOf r back' ∧ r.reader = s.rfifo.reader ∧ r.writer = s.rfifo.writer)
    (hstr : ∀ i j str, c = .copying i j str → s.slots j = str) :
    Inv n N { s with consumer := c, wfifo := q, rfifo := r } sent' back' lost := by
  have hsound := h.sound.reorder hfree
  refine h.consumerLoop rfl rfl rfl rfl hold hc hat ?_ ?_ hq hr hstr
  · simp only [view] at hsound ⊢
    rwa [hpending]
  · simp only [view, Mailbox.count]
    rw [hpending]

/-- **A message is taken.** -/
theorem taken (h : Inv n N s sent back lost) {i j : Nat} {str : Option Nat}
    (hc : s.consumer = .copying i j str) :
    Inv n N { s with
      consumer := .copied i j
      copied := s.copied ++ [if s.slots j = str then str else none] } sent back lost := by
  have hpre : s.consumer.pre = [j] := by rw [hc]; rfl
  have hpost : s.consumer.post = [] := by rw [hc]; rfl
  have hpre' : (Consumer.copied i j).pre = [] := rfl
  have hpost' : (Consumer.copied i j).post = [j] := rfl
  have hpending : (view n s sent back lost).pending = j :: (sent ++ s.producer.post) := by
    simp only [view, hpre]
    rfl
  obtain ⟨-, hsound⟩ := h.sound.take hpending
  -- the slot has not changed under the copy
  have hslot := h.str i j str hc
  rw [if_pos hslot, ← hslot]
  have hat := h.consumer
  rw [hc] at hat
  refine h.consumerLoop rfl rfl rfl rfl (by rw [hc]; rfl) rfl ?_ ?_ ?_ ⟨h.wfifo, rfl, rfl⟩
    ⟨h.rfifo, rfl, rfl⟩ (fun _ _ _ hk => by cases hk)
  · refine ⟨hat.1, ?_⟩
    rw [List.length_append, List.length_singleton, hat.2]
  · simp only [view, hpre', hpost', hpost, List.nil_append] at hsound ⊢
    exact hsound
  · simp only [view, Mailbox.count, hpre, hpre', List.length_append, List.length_singleton,
      List.length_nil]
    omega

/-- The consumer writes its last byte. -/
theorem confirms (h : Inv n N s sent back lost) (hc : s.consumer = .confirm) {q : Fifo Unit}
    (hwrite : s.confirm.write [()] = some q) :
    Inv n N { s with consumer := .closing 0, confirm := q } sent back lost := by
  obtain ⟨p, c, slots, w, copied, wf, rf, cf⟩ := s
  obtain rfl : c = .confirm := hc
  have hpast : p.past = false := h.not_past rfl
  have hcf : cf.bytes = [] := h.confirm.trans (if_neg fun hc => by cases hc.1)
  have hreader : cf.reader = true := by
    have hends := h.ends.confirm.1
    rw [Producer.closed_of_past hpast] at hends
    exact hends
  have hwrite : cf.write [()] = some q := hwrite
  rw [Fifo.write_eq_some hreader] at hwrite
  cases hwrite
  exact { h with
    consumer := ⟨by omega, h.consumer⟩
    ends := ⟨h.ends.wfifo, h.ends.rfifo, h.ends.confirm⟩
    str := fun _ _ _ hk => by cases hk
    last := fun _ => rfl
    confirm := by
      show cf.bytes ++ [()] = if (Consumer.closing 0).past = true ∧ p.past = false then [()] else []
      rw [hcf, if_pos ⟨rfl, hpast⟩]
      rfl }

/-- Closing `/tmp/wfifo` loses nothing: nothing is in it. -/
theorem consumerClosesW (hN : n ≤ N) (h : Inv n N s sent back lost)
    (hc : s.consumer = .closing 0) :
    Inv n N { s with consumer := .closing 1, wfifo := s.wfifo.closeReader } sent back lost := by
  obtain ⟨p, c, slots, w, copied, wf, rf, cf⟩ := s
  obtain rfl : c = .closing 0 := hc
  obtain rfl := h.sent_nil hN rfl
  have hwf : wf.bytes = [] := h.wfifo
  have hbytes : wf.closeReader.bytes = [] := by
    rcases wf.closeReader_bytes with hb | hb
    · exact hb.trans hwf
    · exact hb.1
  exact { h with
    wfifo := hbytes
    consumer := ⟨by omega, h.consumer.2⟩
    ends := ⟨⟨h.ends.wfifo.1, rfl⟩, h.ends.rfifo, h.ends.confirm⟩
    str := fun _ _ _ hk => by cases hk }

/-- Closing `/tmp/rfifo` loses the indices in it where the producer has closed it before. -/
theorem consumerClosesR (h : Inv n N s sent back lost) (hc : s.consumer = .closing 1) :
    ∃ sent' back' lost', Inv n N
      { s with consumer := .closing 2, rfifo := s.rfifo.closeWriter } sent' back' lost' := by
  obtain ⟨p, c, slots, w, copied, wf, rf, cf⟩ := s
  obtain rfl : c = .closing 1 := hc
  have hends : Ends ⟨p, .closing 2, slots, w, copied, wf, rf.closeWriter, cf⟩ :=
    ⟨h.ends.wfifo, ⟨h.ends.rfifo.1, rfl⟩, h.ends.confirm⟩
  rcases rf.closeWriter_bytes with hb | ⟨hb, hreader⟩
  · exact ⟨sent, back, lost, { h with
      rfifo := hb.trans h.rfifo
      consumer := ⟨by omega, h.consumer.2⟩
      ends := hends
      str := fun _ _ _ hk => by cases hk }⟩
  · refine ⟨sent, [], back ++ lost, { h with
      sound := ?_
      rfifo := hb
      consumer := ⟨by omega, h.consumer.2⟩
      ends := hends
      str := fun _ _ _ hk => by cases hk
      lost := fun _ => producer_past h.ends.rfifo.1 hreader }⟩
    refine h.sound.reorder (f := [] ++ [] ++ p.pre ++ (p.unsent n ++ (back ++ lost))) ?_
    refine List.perm_iff_count.mpr fun a => ?_
    simp only [view, Consumer.post, List.count_append, List.count_nil]
    omega

theorem consumerClosesC (h : Inv n N s sent back lost) (hc : s.consumer = .closing 2) :
    Inv n N { s with consumer := .done, confirm := s.confirm.closeWriter } sent back lost := by
  obtain ⟨p, c, slots, w, copied, wf, rf, cf⟩ := s
  obtain rfl : c = .closing 2 := hc
  have hcf : cf.bytes = if (Consumer.closing 2).past = true ∧ p.past = false then [()] else [] :=
    h.confirm
  have hbytes : cf.closeWriter.bytes = cf.bytes := by
    rcases cf.closeWriter_bytes with hb | ⟨hb, hreader⟩
    · exact hb
    · have hpast : p.past = true := producer_past h.ends.confirm.1 hreader
      rw [hb, hcf, hpast, if_neg fun hc => by cases hc.2]
  exact { h with
    consumer := h.consumer.2
    ends := ⟨h.ends.wfifo, h.ends.rfifo, ⟨h.ends.confirm.1, rfl⟩⟩
    str := fun _ _ _ hk => by cases hk
    confirm := hbytes.trans hcf }

/-- A `write` to the producer finds it there while the consumer is in its loop. -/
theorem producer_there (h : Inv n N s sent back lost) (hc : s.consumer.past = false) :
    s.rfifo.reader = true ∧ s.confirm.reader = true := by
  have hclosed := Producer.closed_of_past (h.not_past hc)
  have hr := h.ends.rfifo.1
  have hcf := h.ends.confirm.1
  rw [hclosed] at hr hcf
  exact ⟨hr, hcf⟩

/-- **Every step of the consumer.** -/
theorem consumerStep (hN : n ≤ N) (h : Inv n N s sent back lost) (hst : ConsumerStep N s s') :
    ∃ sent' back' lost', Inv n N s' sent' back' lost' := by
  have hat := h.consumer
  have hwf : Carries bytesOf s.wfifo sent ∧ s.wfifo.reader = s.wfifo.reader ∧
    s.wfifo.writer = s.wfifo.writer := ⟨h.wfifo, rfl, rfl⟩
  have hrf : Carries bytesOf s.rfifo back ∧ s.rfifo.reader = s.rfifo.reader ∧
    s.rfifo.writer = s.rfifo.writer := ⟨h.rfifo, rfl, rfl⟩
  cases hst with
  | @read i j bs q hc hi hread hj =>
    rw [hc] at hat
    rcases h.wfifo.read length_bytesOf (by decide) hread with
      ⟨a, sent', rfl, rfl, hq⟩ | ⟨-, hno⟩
    · rw [hj.eq]
      exact ⟨sent', back, lost, h.consumerPass (by rw [hc]; rfl) rfl ⟨hi, hat.2⟩
        (by rw [hc]; rfl) (by rw [hc]; exact List.Perm.refl _) hq hrf fun _ _ _ hk => by cases hk⟩
    · -- the end of the file would mean that the consumer had finished
      have hpast := h.last (producer_past h.ends.wfifo.1 hno)
      rw [hc] at hpast
      cases hpast
  | @loopDone i hc hi =>
    rw [hc] at hat
    refine ⟨sent, back, lost, h.consumerPass (by rw [hc]; rfl) rfl ?_ (by rw [hc]; rfl)
      (by rw [hc]; exact List.Perm.refl _) hwf hrf fun _ _ _ hk => by cases hk⟩
    have := hat.1
    exact hat.2.trans (by omega)
  | @copy i j hc =>
    rw [hc] at hat
    refine ⟨sent, back, lost, h.consumerPass (by rw [hc]; rfl) rfl hat (by rw [hc]; rfl)
      (by rw [hc]; exact List.Perm.refl _) hwf hrf fun _ _ _ hk => ?_⟩
    cases hk
    rfl
  | copied hc => exact ⟨sent, back, lost, h.taken hc⟩
  | @write i j q hc hwrite =>
    rw [hc] at hat
    refine ⟨sent, back ++ [j], lost, h.consumerPass (by rw [hc]; rfl) rfl ⟨hat.1, hat.2⟩
      (by rw [hc]; rfl) ?_ hwf (h.rfifo.write hwrite) fun _ _ _ hk => by cases hk⟩
    rw [hc]
    refine List.perm_iff_count.mpr fun a => ?_
    simp only [Consumer.post, List.count_append, List.count_nil]
    omega
  | writeFails hc hwrite =>
    rw [Fifo.write_eq_some (h.producer_there (by rw [hc]; rfl)).1] at hwrite
    cases hwrite
  | confirm hc hwrite => exact ⟨sent, back, lost, h.confirms hc hwrite⟩
  | confirmFails hc hwrite =>
    rw [Fifo.write_eq_some (h.producer_there (by rw [hc]; rfl)).2] at hwrite
    cases hwrite
  | closeWrite hc => exact ⟨sent, back, lost, h.consumerClosesW hN hc⟩
  | closeRead hc => exact h.consumerClosesR hc
  | closeConfirm hc => exact ⟨sent, back, lost, h.consumerClosesC hc⟩

/-! ## Runs -/

theorem start (h : Start s) : Inv n N s [] [] [] := by
  obtain ⟨p, c, slots, w, copied, wf, rf, cf⟩ := s
  obtain ⟨hp, hc, hslots, hw, hcopied, hwf, hrf, hcf⟩ := h
  obtain rfl : p = .fill 0 := hp
  obtain rfl : c = .loop 0 := hc
  obtain rfl : w = 0 := hw
  obtain rfl : copied = [] := hcopied
  obtain rfl : wf = ⟨[], true, true⟩ := hwf
  obtain rfl : rf = ⟨[], true, true⟩ := hrf
  obtain rfl : cf = ⟨[], true, true⟩ := hcf
  refine
    { sound := ⟨List.nodup_range, ?_, rfl, rfl, fun j _ t ht => ?_⟩, written := rfl, wfifo := rfl,
      rfifo := rfl, producer := ⟨Nat.zero_le n, rfl⟩, consumer := ⟨Nat.zero_le N, rfl⟩,
      ends := ⟨⟨rfl, rfl⟩, ⟨rfl, rfl⟩, ⟨rfl, rfl⟩⟩, str := fun _ _ _ hk => (by cases hk),
      lost := fun hl => absurd rfl hl, last := fun hp => (by cases hp), confirm := rfl }
  · simp [view, Consumer.pre, Consumer.post, Producer.pre, Producer.post, Producer.unsent,
      List.range_eq_range']
  · have ht : slots j = some t := ht
    rw [show slots j = none from hslots j] at ht
    cases ht

/-- **The run lemma**: in every state the invariant holds for the indices that are in the two FIFOs
    and those that are gone. -/
theorem of_reach (hN : n ≤ N) (h : (ring n N).Reach s) :
    ∃ sent back lost, Inv n N s sent back lost := by
  refine h.invariant (I := fun s => ∃ sent back lost, Inv n N s sent back lost) ?_ ?_
  · exact fun s hs => ⟨[], [], [], start hs⟩
  · rintro s e s' ⟨sent, back, lost, hs⟩ hst
    cases e with
    | producer => exact hs.producerStep hN hst
    | consumer => exact hs.consumerStep hN hst

end Inv

/-! ## The promises -/

theorem indices_flatMap (l : List Nat) :
    ((l.flatMap bytesOf).filter fun b => b.2 = 0).map Prod.fst = l := by
  induction l with
  | nil => rfl
  | cons j l ih =>
    rw [List.flatMap_cons, List.filter_append, List.map_append, ih]
    rfl

theorem indices_eq {q : Fifo IntByte} {l : List Nat} (h : Carries bytesOf q l) : indices q = l := by
  have h : q.bytes = l.flatMap bytesOf := h
  rw [indices, h, indices_flatMap]

theorem Consumer.hand_eq (c : Consumer) : c.hand = c.pre ++ c.post := by
  cases c <;> rfl

theorem Producer.hand_eq (p : Producer) : p.hand = p.pre ++ p.post := by
  cases p <;> rfl

namespace Inv

/-- The indices that are owned, with the others, are all. -/
theorem owned_perm (h : Inv n N s sent back lost) :
    (owned s ++ (s.producer.unsent n ++ lost)).Perm (List.range n) := by
  refine List.Perm.trans (List.perm_iff_count.mpr fun a => ?_) h.sound.perm
  rw [owned, indices_eq h.wfifo, indices_eq h.rfifo, Consumer.hand_eq, Producer.hand_eq]
  simp only [view, List.count_append]
  omega

/-- **No message is lost under another.**  A slot that the producer writes to has no message, or
    one that was copied. -/
theorem overwrites (h : Inv n N s sent back lost) (hst : ProducerStep n N s s') {j t : Nat}
    (hne : s'.slots j ≠ s.slots j) (ht : s.slots j = some t) : t = 0 ∨ some t ∈ s.copied := by
  have hfree : ∀ {i : Nat} {v : Option Nat}, Function.update s.slots i v j ≠ s.slots j →
      i ∈ (view n s sent back lost).free → t = 0 ∨ some t ∈ s.copied := by
    intro i v hne hi
    have hij : j = i := by
      by_contra hij
      exact hne (Function.update_of_ne hij _ _)
    rw [← hij] at hi
    exact h.sound.taken_of_free hi ht
  cases hst with
  | @fill i hp hi =>
    have hi : i ∈ List.range' 0 n := List.mem_range'_1.mpr ⟨by omega, by omega⟩
    exact hfree hne (by simp [view, hp, Producer.unsent, hi])
  | store hp => exact hfree hne (by simp [view, hp, Producer.pre])
  | stored hp => exact hfree hne (by simp [view, hp, Producer.pre])
  | _ => exact absurd rfl hne

/-! ### Progress -/

theorem exists_reads (bs : List IntByte) : ∃ j, Reads bs j := by
  by_cases h : ∃ v, bs = bytesOf v
  · obtain ⟨v, rfl⟩ := h
    exact ⟨v, fun u hu => bytesOf_inj hu.symm ▸ rfl⟩
  · exact ⟨0, fun v hv => absurd ⟨v, hv⟩ h⟩

/-- A read of an empty FIFO may have to wait; any other goes on. -/
theorem read_cases {β : Type} (q : Fifo β) (m : Nat) :
    q.bytes = [] ∨ ∃ bs q', q.read m = some (bs, q') := by
  by_cases hb : q.bytes = []
  · exact .inl hb
  · exact .inr ⟨_, _, Fifo.read_eq_some (.inl hb)⟩

/-- **The producer** goes on, or has finished, or waits for an index or for the last byte. -/
theorem producer_goes (h : Inv n N s sent back lost) : (∃ s', ProducerStep n N s s') ∨
    s.producer = .done ∨ (s.producer = .confirm ∧ s.confirm.bytes = []) ∨
    ∃ i, s.producer = .again i ∧ i < N - n ∧ s.rfifo.bytes = [] := by
  have hat := h.producer
  cases hp : s.producer with
  | fill i =>
    by_cases hi : i < n
    · exact .inl ⟨_, .fill hp hi⟩
    · exact .inl ⟨_, .filled hp hi⟩
  | first i =>
    by_cases hi : i < n
    · exact .inl ⟨_, .first hp hi⟩
    · exact .inl ⟨_, .firstDone hp hi⟩
  | again i =>
    by_cases hi : i < N - n
    · rcases read_cases s.rfifo 4 with hempty | ⟨bs, q, hread⟩
      · exact .inr (.inr (.inr ⟨i, rfl, hi, hempty⟩))
      · obtain ⟨j, hj⟩ := exists_reads bs
        exact .inl ⟨_, .again hp hi hread hj⟩
    · exact .inl ⟨_, .againDone hp hi⟩
  | hold l j => exact .inl ⟨_, .store hp⟩
  | storing l j => exact .inl ⟨_, .stored hp⟩
  | stored l j =>
    cases hwrite : s.wfifo.write (bytesOf j) with
    | none => exact .inl ⟨_, .writeFails hp hwrite⟩
    | some q => exact .inl ⟨_, .write hp hwrite⟩
  | confirm =>
    rcases read_cases s.confirm 1 with hempty | ⟨bs, q, hread⟩
    · exact .inr (.inr (.inl ⟨rfl, hempty⟩))
    · exact .inl ⟨_, .confirm hp hread⟩
  | closing k =>
    rw [hp] at hat
    obtain rfl | rfl | rfl : k = 0 ∨ k = 1 ∨ k = 2 := by
      have := hat.1
      omega
    · exact .inl ⟨_, .closeWrite hp⟩
    · exact .inl ⟨_, .closeRead hp⟩
    · exact .inl ⟨_, .closeConfirm hp⟩
  | done => exact .inr (.inl rfl)
  | killed =>
    rw [hp] at hat
    exact hat.elim

/-- **The consumer** goes on, or has finished, or waits for an index. -/
theorem consumer_goes (h : Inv n N s sent back lost) : (∃ s', ConsumerStep N s s') ∨
    s.consumer = .done ∨ ∃ i, s.consumer = .loop i ∧ i < N ∧ s.wfifo.bytes = [] := by
  have hat := h.consumer
  cases hc : s.consumer with
  | loop i =>
    by_cases hi : i < N
    · rcases read_cases s.wfifo 4 with hempty | ⟨bs, q, hread⟩
      · exact .inr (.inr ⟨i, rfl, hi, hempty⟩)
      · obtain ⟨j, hj⟩ := exists_reads bs
        exact .inl ⟨_, .read hc hi hread hj⟩
    · exact .inl ⟨_, .loopDone hc hi⟩
  | hold i j => exact .inl ⟨_, .copy hc⟩
  | copying i j str => exact .inl ⟨_, .copied hc⟩
  | copied i j =>
    cases hwrite : s.rfifo.write (bytesOf j) with
    | none => exact .inl ⟨_, .writeFails hc hwrite⟩
    | some q => exact .inl ⟨_, .write hc hwrite⟩
  | confirm =>
    cases hwrite : s.confirm.write [()] with
    | none => exact .inl ⟨_, .confirmFails hc hwrite⟩
    | some q => exact .inl ⟨_, .confirm hc hwrite⟩
  | closing k =>
    rw [hc] at hat
    obtain rfl | rfl | rfl : k = 0 ∨ k = 1 ∨ k = 2 := by
      have := hat.1
      omega
    · exact .inl ⟨_, .closeWrite hc⟩
    · exact .inl ⟨_, .closeRead hc⟩
    · exact .inl ⟨_, .closeConfirm hc⟩
  | done => exact .inr (.inl rfl)
  | killed =>
    rw [hc] at hat
    exact hat.elim

theorem carries_nil {q : Fifo IntByte} {l : List Nat} (h : Carries bytesOf q l)
    (hb : q.bytes = []) : l = [] := by
  rw [← indices_eq h, indices, hb]
  rfl

/-- Both cannot wait at once: a slot that is not free is on its way, and there is one. -/
theorem not_both_wait (hn : 1 ≤ n) (h : Inv n N s sent back lost) {i : Nat}
    (hc : s.consumer = .loop i) (hi : i < N) (hw : s.wfifo.bytes = []) :
    ¬ (s.producer = .confirm ∨ ∃ k, s.producer = .again k ∧ s.rfifo.bytes = []) := by
  have hwritten := h.written
  have hat := h.consumer
  rw [hc] at hat
  obtain rfl := carries_nil h.wfifo hw
  rintro (hp | ⟨k, hp, hr⟩)
  · have hpat := h.producer
    rw [hp] at hpat
    have hpat : s.written = N := hpat
    have := hat.2
    simp only [Mailbox.count, view, hp, hc, Consumer.pre, Producer.post, List.append_nil,
      List.length_nil] at hwritten
    omega
  · obtain rfl := carries_nil h.rfifo hr
    have hlost : lost = [] := by
      by_contra hl
      have hpast := h.lost hl
      rw [hp] at hpast
      cases hpast
    have hlen := h.owned_perm.length_eq
    rw [owned, indices_eq h.wfifo, indices_eq h.rfifo, hc, hp, hlost] at hlen
    simp only [Consumer.hand, Producer.hand, Producer.unsent, List.append_nil, List.length_nil,
      List.length_range] at hlen
    omega

/-- **Nothing is stuck** before both programs have finished. -/
theorem progress (hn : 1 ≤ n) (h : Inv n N s sent back lost) (hf : ¬ Finished s) :
    ∃ p s', Step n N s p s' := by
  rcases h.producer_goes with ⟨s', hst⟩ | hdone | hwaits
  · exact ⟨.producer, s', hst⟩
  · rcases h.consumer_goes with ⟨s', hst⟩ | hdone' | ⟨i, hc, -⟩
    · exact ⟨.consumer, s', hst⟩
    · exact absurd ⟨hdone, hdone'⟩ hf
    · have hpast := h.last (by rw [hdone]; rfl)
      rw [hc] at hpast
      cases hpast
  · rcases h.consumer_goes with ⟨s', hst⟩ | hdone' | ⟨i, hc, hi, hw⟩
    · exact ⟨.consumer, s', hst⟩
    · exfalso
      have hpast : s.consumer.past = true := by
        rw [hdone']
        rfl
      have hall := h.all_copied hpast
      have hle := h.copied_le
      rcases hwaits with ⟨hp, hempty⟩ | ⟨k, hp, hk, -⟩
      · have hbyte := h.confirm
        rw [if_pos ⟨hpast, by rw [hp]; rfl⟩, hempty] at hbyte
        cases hbyte
      · have hpat := h.producer
        rw [hp] at hpat
        have := hpat.2
        omega
    · refine absurd ?_ (h.not_both_wait hn hc hi hw)
      rcases hwaits with ⟨hp, -⟩ | ⟨k, hp, -, hr⟩
      · exact .inl hp
      · exact .inr ⟨k, hp, hr⟩

end Inv

end Steps

/-- **The shared-memory ring.**  With `n ≥ 1` slots and `N ≥ n` messages, in every state that the
    two programs reach: no index is twice among the two queues and the two hands, and each is that
    of a slot; the producer changes no slot whose message is still to be copied; the consumer has
    copied the messages `1, 2, …` in order, each once and no torn one, and all `N` of them when it
    has finished; and one of the programs goes on until both have finished. -/
theorem ring_protocol {n N : Nat} (hn : 1 ≤ n) (hN : n ≤ N) {s : State} (h : (ring n N).Reach s) :
    ((owned s).Nodup ∧ ∀ j ∈ owned s, j < n) ∧
    (∀ s', ProducerStep n N s s' → ∀ j t, s'.slots j ≠ s.slots j → s.slots j = some t →
      t = 0 ∨ some t ∈ s.copied) ∧
    (s.copied = (List.range' 1 s.copied.length).map some ∧ s.copied.length ≤ N ∧
      (s.consumer = .done → s.copied.length = N)) ∧
    (¬ Finished s → ∃ p s', Step n N s p s') := by
  obtain ⟨sent, back, lost, hinv⟩ := Inv.of_reach hN h
  refine ⟨⟨?_, fun j hj => ?_⟩, fun s' hst j t hne ht => hinv.overwrites hst hne ht,
    ⟨hinv.sound.taken, Nat.le_trans hinv.copied_le (hinv.producer.le hN), fun hdone => ?_⟩,
    hinv.progress hn⟩
  · have hnodup := hinv.owned_perm.nodup_iff.mpr List.nodup_range
    exact (List.nodup_append.mp hnodup).1
  · exact List.mem_range.mp (hinv.owned_perm.mem_iff.mp (List.mem_append_left _ hj))
  · exact hinv.all_copied (by rw [hdone]; rfl)

/-! ## Runs that can be computed -/

/-- The int that a `read` of its bytes leaves. -/
def readInt (bs : List IntByte) : Nat := (bs.headD (0, 0)).1

theorem reads_readInt (bs : List IntByte) : Reads bs (readInt bs) := by
  intro v hv
  rw [hv]
  rfl

/-- The next step of the producer, if it is not waiting. -/
def produce (n N : Nat) (s : State) : Option State :=
  match s.producer with
  | .fill i =>
    if i < n then
      some { s with producer := .fill (i + 1), slots := Function.update s.slots i (some 0) }
    else some { s with producer := .first 0 }
  | .first i =>
    if i < n then some { s with producer := .hold (.first i) i }
    else some { s with producer := .again 0 }
  | .again i =>
    if i < N - n then (s.rfifo.read 4).map fun x =>
      { s with producer := .hold (.again i) (readInt x.1), rfifo := x.2 }
    else some { s with producer := .confirm }
  | .hold l j =>
    some { s with producer := .storing l j, slots := Function.update s.slots j none }
  | .storing l j =>
    some { s with
      producer := .stored l j
      slots := Function.update s.slots j (some (s.written + 1))
      written := s.written + 1 }
  | .stored l j => (s.wfifo.write (bytesOf j)).map fun q => { s with producer := l.next, wfifo := q }
  | .confirm => (s.confirm.read 1).map fun x => { s with producer := .closing 0, confirm := x.2 }
  | .closing 0 => some { s with producer := .closing 1, wfifo := s.wfifo.closeWriter }
  | .closing 1 => some { s with producer := .closing 2, rfifo := s.rfifo.closeReader }
  | .closing 2 => some { s with producer := .done, confirm := s.confirm.closeReader }
  | .closing _ | .done | .killed => none

/-- The next step of the consumer, if it is not waiting. -/
def consume (N : Nat) (s : State) : Option State :=
  match s.consumer with
  | .loop i =>
    if i < N then (s.wfifo.read 4).map fun x =>
      { s with consumer := .hold i (readInt x.1), wfifo := x.2 }
    else some { s with consumer := .confirm }
  | .hold i j => some { s with consumer := .copying i j (s.slots j) }
  | .copying i j str =>
    some { s with
      consumer := .copied i j
      copied := s.copied ++ [if s.slots j = str then str else none] }
  | .copied i j =>
    (s.rfifo.write (bytesOf j)).map fun q => { s with consumer := .loop (i + 1), rfifo := q }
  | .confirm => (s.confirm.write [()]).map fun q => { s with consumer := .closing 0, confirm := q }
  | .closing 0 => some { s with consumer := .closing 1, wfifo := s.wfifo.closeReader }
  | .closing 1 => some { s with consumer := .closing 2, rfifo := s.rfifo.closeWriter }
  | .closing 2 => some { s with consumer := .done, confirm := s.confirm.closeWriter }
  | .closing _ | .done | .killed => none

theorem produce_step {n N : Nat} {s s' : State} (h : produce n N s = some s') :
    ProducerStep n N s s' := by
  unfold produce at h
  cases hp : s.producer with
  | fill i =>
    simp only [hp] at h
    split at h
    · rename_i hi
      exact Option.some.inj h ▸ .fill hp hi
    · rename_i hi
      exact Option.some.inj h ▸ .filled hp hi
  | first i =>
    simp only [hp] at h
    split at h
    · rename_i hi
      exact Option.some.inj h ▸ .first hp hi
    · rename_i hi
      exact Option.some.inj h ▸ .firstDone hp hi
  | again i =>
    simp only [hp] at h
    split at h
    · rename_i hi
      obtain ⟨⟨bs, q⟩, hread, hs⟩ := Option.map_eq_some_iff.mp h
      exact hs ▸ .again hp hi hread (reads_readInt bs)
    · rename_i hi
      exact Option.some.inj h ▸ .againDone hp hi
  | hold l j =>
    simp only [hp] at h
    exact Option.some.inj h ▸ .store hp
  | storing l j =>
    simp only [hp] at h
    exact Option.some.inj h ▸ .stored hp
  | stored l j =>
    simp only [hp] at h
    obtain ⟨q, hwrite, hs⟩ := Option.map_eq_some_iff.mp h
    exact hs ▸ .write hp hwrite
  | confirm =>
    simp only [hp] at h
    obtain ⟨⟨bs, q⟩, hread, hs⟩ := Option.map_eq_some_iff.mp h
    exact hs ▸ .confirm hp hread
  | closing k =>
    match k with
    | 0 =>
      simp only [hp] at h
      exact Option.some.inj h ▸ .closeWrite hp
    | 1 =>
      simp only [hp] at h
      exact Option.some.inj h ▸ .closeRead hp
    | 2 =>
      simp only [hp] at h
      exact Option.some.inj h ▸ .closeConfirm hp
    | k + 3 =>
      simp only [hp] at h
      cases h
  | done | killed =>
    simp only [hp] at h
    cases h

theorem consume_step {N : Nat} {s s' : State} (h : consume N s = some s') :
    ConsumerStep N s s' := by
  unfold consume at h
  cases hc : s.consumer with
  | loop i =>
    simp only [hc] at h
    split at h
    · rename_i hi
      obtain ⟨⟨bs, q⟩, hread, hs⟩ := Option.map_eq_some_iff.mp h
      exact hs ▸ .read hc hi hread (reads_readInt bs)
    · rename_i hi
      exact Option.some.inj h ▸ .loopDone hc hi
  | hold i j =>
    simp only [hc] at h
    exact Option.some.inj h ▸ .copy hc
  | copying i j str =>
    simp only [hc] at h
    exact Option.some.inj h ▸ .copied hc
  | copied i j =>
    simp only [hc] at h
    obtain ⟨q, hwrite, hs⟩ := Option.map_eq_some_iff.mp h
    exact hs ▸ .write hc hwrite
  | confirm =>
    simp only [hc] at h
    obtain ⟨q, hwrite, hs⟩ := Option.map_eq_some_iff.mp h
    exact hs ▸ .confirm hc hwrite
  | closing k =>
    match k with
    | 0 =>
      simp only [hc] at h
      exact Option.some.inj h ▸ .closeWrite hc
    | 1 =>
      simp only [hc] at h
      exact Option.some.inj h ▸ .closeRead hc
    | 2 =>
      simp only [hc] at h
      exact Option.some.inj h ▸ .closeConfirm hc
    | k + 3 =>
      simp only [hc] at h
      cases h
  | done | killed =>
    simp only [hc] at h
    cases h

/-- The state behind steps of the two programs in a given order, from `s` on. -/
def runParties (n N : Nat) (l : List Party) (s : State) : Option State :=
  l.foldlM (fun s p => match p with | .producer => produce n N s | .consumer => consume N s) s

theorem runParties_reach {n N : Nat} {l : List Party} {s s' : State} (h : (ring n N).Reach s)
    (hrun : runParties n N l s = some s') : (ring n N).Reach s' := by
  refine Lts.Reach.foldlM (fun p _ s s' hp => ?_) h hrun
  cases p with
  | producer => exact ⟨.producer, produce_step hp⟩
  | consumer => exact ⟨.consumer, consume_step hp⟩

/-- Behind the opening of the FIFOs. -/
def opened : State := ⟨.fill 0, .loop 0, fun _ => none, 0, [], ⟨[], true, true⟩, ⟨[], true, true⟩,
  ⟨[], true, true⟩⟩

theorem opened_reach (n N : Nat) : (ring n N).Reach opened :=
  .start ⟨rfl, rfl, fun _ => rfl, rfl, rfl, rfl, rfl, rfl⟩

/-- Two slots and three messages: both slots are filled, the consumer copies the first, and its
    index is back in the hands of the producer while the second message is being copied. -/
def halfway : List Party :=
  List.replicate 11 .producer ++ List.replicate 4 .consumer ++ List.replicate 2 .consumer ++
    List.replicate 2 .producer

/-- The rest of that run: the third message goes to the slot of the first, and both programs
    finish. -/
def theRest : List Party :=
  List.replicate 3 .producer ++ List.replicate 6 .consumer ++ [.producer] ++
    List.replicate 2 .consumer ++ List.replicate 4 .producer ++ List.replicate 3 .consumer

theorem ring_protocol_three : ∃ s t s', (ring 2 3).Reach s ∧ owned s = [1, 0] ∧
    (owned s).Nodup ∧ ProducerStep 2 3 s t ∧ s.slots 0 = some 1 ∧ t.slots 0 = none ∧
    some 1 ∈ s.copied ∧ (ring 2 3).Reach s' ∧ Finished s' ∧
    s'.copied = [some 1, some 2, some 3] := by
  have hrun : (runParties 2 3 halfway opened).bind (fun s => (produce 2 3 s).bind fun t =>
      (runParties 2 3 theRest s).map fun s' => (owned s, [s.slots 0, t.slots 0],
        [decide (s'.producer = .done), decide (s'.consumer = .done)])) =
      some ([1, 0], [some 1, none], [true, true]) := by decide +kernel
  obtain ⟨s, hs, ht⟩ := Option.bind_eq_some_iff.mp hrun
  obtain ⟨t, hst, hs'⟩ := Option.bind_eq_some_iff.mp ht
  obtain ⟨s', hrest, hfacts⟩ := Option.map_eq_some_iff.mp hs'
  simp only [Prod.mk.injEq, List.cons.injEq, and_true, decide_eq_true_eq] at hfacts
  obtain ⟨howned, ⟨hslot, hslot'⟩, hproducer, hconsumer⟩ := hfacts
  have hreach := runParties_reach (opened_reach 2 3) hs
  have hreach' := runParties_reach hreach hrest
  have hstep := produce_step hst
  obtain ⟨⟨hnodup, -⟩, hkeeps, -, -⟩ := ring_protocol (by decide) (by decide) hreach
  obtain ⟨-, -, ⟨hcopied, -, hall⟩, -⟩ := ring_protocol (by decide) (by decide) hreach'
  have hfirst : some 1 ∈ s.copied :=
    (hkeeps t hstep 0 1 (by rw [hslot, hslot']; nofun) hslot).resolve_left (by decide)
  refine ⟨s, t, s', hreach, howned, hnodup, hstep, hslot, hslot', hfirst, hreach',
    ⟨hproducer, hconsumer⟩, ?_⟩
  rw [hcopied, hall hconsumer]
  rfl

end OsCodes.Ring
