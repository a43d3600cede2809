/-
  Ownership of the slots in the shared-memory ring.

  A state is a `Mailbox`: the messages to be taken lie in the slots that the consumer holds, that
  are on their way to it and that the producer has just written, in this order; the other slots
  are free.  One `memcpy` of the producer puts a message, one of the consumer takes one, and every
  other step passes an index on (`Inv.producer`, `Inv.consumer`).

  Structure:

  1. `view` reads a state as a mailbox.  An index that went with a FIFO which both programs had
     closed is `lost`, and still counts as free, so that no index ever disappears from the books;
  2. `Producer.At` and `Consumer.At` say how far each program has come when so many messages are
     written or copied, and `Ends` which ends of the three FIFOs are then open;
  3. `Inv.loop` is the frame of every step of the producer in its loops; `pass`, `touch` and
     `stored` are its three kinds: an index moves, a slot without a message is written to, a
     message is stored;
  4. `Inv.producerStep` has one lemma for each constructor of `ProducerStep`.

  A `read` of the producer in its second loop finds an index or waits, since the consumer has the
  FIFO open while a message is missing (`reads_back`); in the same way no `write` fails
  (`consumer_there`).
-/
import OsCodes.Lib.Mailbox
import OsCodes.Ipc.Ring

namespace OsCodes.Ring

open Fifo (Carries)

/-! ## The view -/

/-- The index before the consumer has copied, and behind it. -/
def Consumer.pre : Consumer → List Nat
  | .hold _ j => [j]
  | .copying _ j _ => [j]
  | _ => []

/-- The slot whose message the consumer has copied and printed. -/
def Consumer.post : Consumer → List Nat
  | .copied _ j => [j]
  | _ => []

/-- The index before the producer has stored a message, and behind it. -/
def Producer.pre : Producer → List Nat
  | .hold _ j => [j]
  | .storing _ j => [j]
  | _ => []

/-- The slot into which the producer has put a message. -/
def Producer.post : Producer → List Nat
  | .stored _ j => [j]
  | _ => []

/-- The indices that the first loop of the producer has still to come to. -/
def Producer.unsent (n : Nat) : Producer → List Nat
  | .fill _ => List.range' 0 n
  | .first i => List.range' i (n - i)
  | .hold (.first i) _ => List.range' (i + 1) (n - (i + 1))
  | .storing (.first i) _ => List.range' (i + 1) (n - (i + 1))
  | .stored (.first i) _ => List.range' (i + 1) (n - (i + 1))
  | _ => []

/-- The state as a mailbox; `lost` are indices that went with a FIFO closed at both ends. -/
def view (n : Nat) (s : State) (sent back lost : List Nat) : Mailbox Nat where
  slots := s.slots
  pending := s.consumer.pre ++ sent ++ s.producer.post
  free := s.consumer.post ++ back ++ s.producer.pre ++ (s.producer.unsent n ++ lost)
  taken := s.copied

/-! ## The two programs' places -/

/-- Where the producer is when it has written `w` messages. -/
def Producer.At (n N w : Nat) : Producer → Prop
  | .fill i => i ≤ n ∧ w = 0
  | .first i => i ≤ n ∧ w = i
  | .again i => i ≤ N - n ∧ w = n + i
  | .hold (.first i) _ => i < n ∧ w = i
  | .hold (.again i) _ => i < N - n ∧ w = n + i
  | .storing (.first i) _ => i < n ∧ w = i
  | .storing (.again i) _ => i < N - n ∧ w = n + i
  | .stored (.first i) _ => i < n ∧ w = i + 1
  | .stored (.again i) _ => i < N - n ∧ w = n + i + 1
  | .confirm => w = N
  | .closing k => k < 3 ∧ w = N
  | .done => w = N
  | .killed => False

/-- No more than all messages are written. -/
theorem Producer.At.le {n N w : Nat} (hN : n ≤ N) {p : Producer} (h : p.At n N w) : w ≤ N := by
  cases p with
  | hold l j => cases l <;> (simp only [Producer.At] at h; omega)
  | storing l j => cases l <;> (simp only [Producer.At] at h; omega)
  | stored l j => cases l <;> (simp only [Producer.At] at h; omega)
  | killed => exact h.elim
  | _ => simp only [Producer.At] at h; omega

/-- Where the consumer is when it has copied `c` messages. -/
def Consumer.At (N c : Nat) : Consumer → Prop
  | .loop i => i ≤ N ∧ c = i
  | .hold i _ => i < N ∧ c = i
  | .copying i _ _ => i < N ∧ c = i
  | .copied i _ => i < N ∧ c = i + 1
  | .confirm => c = N
  | .closing k => k < 3 ∧ c = N
  | .done => c = N
  | .killed => False

/-- The number of FIFOs that a program has closed. -/
def Producer.closed : Producer → Nat
  | .closing k => k
  | .done => 3
  | _ => 0

/-- How many of its descriptors the consumer has closed. -/
def Consumer.closed : Consumer → Nat
  | .closing k => k
  | .done => 3
  | _ => 0

/-- A program is behind its last `read` or `write`. -/
def Producer.past : Producer → Bool
  | .closing _ => true
  | .done => true
  | _ => false

/-- Has the consumer left its loop? -/
def Consumer.past : Consumer → Bool
  | .closing _ => true
  | .done => true
  | _ => false

/-- The ends that are open are those that their program has not closed. -/
structure Ends (s : State) : Prop where
  wfifo : s.wfifo.writer = decide (s.producer.closed < 1) ∧
    s.wfifo.reader = decide (s.consumer.closed < 1)
  rfifo : s.rfifo.reader = decide (s.producer.closed < 2) ∧
    s.rfifo.writer = decide (s.consumer.closed < 2)
  confirm : s.confirm.reader = decide (s.producer.closed < 3) ∧
    s.confirm.writer = decide (s.consumer.closed < 3)

/-- What holds in every state, where `sent` and `back` are the indices in the two FIFOs and `lost`
    those that are gone: the view is a sound mailbox, the programs are where their counters say, and
    the ends that are open are known. -/
structure Inv (n N : Nat) (s : State) (sent back lost : List Nat) : Prop where
  sound : (view n s sent back lost).Sound (List.range n)
  written : s.written = (view n s sent back lost).count
  wfifo : Carries bytesOf s.wfifo sent
  rfifo : Carries bytesOf s.rfifo back
  producer : s.producer.At n N s.written
  consumer : s.consumer.At N s.copied.length
  ends : Ends s
  /-- the slot does not change under the consumer's `memcpy` -/
  str : ∀ i j str, s.consumer = .copying i j str → s.slots j = str
  lost : lost ≠ [] → s.producer.past = true
  /-- the byte in the last FIFO -/
  last : s.producer.past = true → s.consumer.past = true
  confirm : s.confirm.bytes = if s.consumer.past = true ∧ s.producer.past = false then [()] else []

theorem length_bytesOf (j : Nat) : (bytesOf j).length = 4 := rfl

theorem bytesOf_inj {j v : Nat} (h : bytesOf j = bytesOf v) : j = v := by
  cases h
  rfl

/-- What was read where a whole int was read. -/
theorem Reads.eq {j v : Nat} (h : Reads (bytesOf v) j) : j = v := h v rfl

section Steps

variable {n N : Nat} {s s' : State} {sent back lost : List Nat}

theorem Producer.closed_of_past {p : Producer} (h : p.past = false) : p.closed = 0 := by
  cases p <;> first | rfl | cases h

theorem Consumer.closed_of_past {c : Consumer} (h : c.past = false) : c.closed = 0 := by
  cases c <;> first | rfl | cases h

namespace Inv

/-- While the consumer is in its loop, so is the producer. -/
theorem not_past (h : Inv n N s sent back lost) (hc : s.consumer.past = false) :
    s.producer.past = false := by
  by_contra hp
  rw [h.last (by simpa using hp)] at hc
  cases hc

/-- A consumer behind its loop has all messages. -/
theorem all_copied (h : Inv n N s sent back lost) (hc : s.consumer.past = true) :
    s.copied.length = N := by
  have hat := h.consumer
  cases hs : s.consumer with
  | closing k => rw [hs] at hat; exact hat.2
  | done => rw [hs] at hat; exact hat
  | _ => rw [hs] at hc; cases hc

theorem copied_le (h : Inv n N s sent back lost) : s.copied.length ≤ s.written := by
  rw [h.written]
  exact Nat.le_add_right _ _

/-! ### Steps of the producer in its loops -/

/-- **A step of the producer** from one place in its loops to another. -/
theorem loop (h : Inv n N s sent back lost) {t : State} {sent' back' : List Nat}
    (hconsumer : t.consumer = s.consumer) (hcopied : t.copied = s.copied)
    (hconfirm : t.confirm = s.confirm) (hold : s.producer.past = false)
    (hnew : t.producer.past = false) (hat : t.producer.At n N t.written)
    (hsound : (view n t sent' back' lost).Sound (List.range n))
    (hwritten : t.written = (view n t sent' back' lost).count)
    (hw : Carries bytesOf t.wfifo sent' ∧ t.wfifo.reader = s.wfifo.reader ∧
      t.wfifo.writer = s.wfifo.writer)
    (hr : Carries bytesOf t.rfifo back' ∧ t.rfifo.reader = s.rfifo.reader ∧
      t.rfifo.writer = s.rfifo.writer)
    (hstr : ∀ i j str, s.consumer = .copying i j str → t.slots j = str) :
    Inv n N t sent' back' lost := by
  have hclosed : t.producer.closed = s.producer.closed := by
    rw [Producer.closed_of_past hold, Producer.closed_of_past hnew]
  refine
    { sound := hsound, written := hwritten, wfifo := hw.1, rfifo := hr.1, producer := hat,
      consumer := ?_, ends := ⟨?_, ?_, ?_⟩, str := ?_, lost := ?_, last := ?_, confirm := ?_ }
  · rw [hconsumer, hcopied]
    exact h.consumer
  · rw [hclosed, hconsumer, hw.2.1, hw.2.2]
    exact h.ends.wfifo
  · rw [hclosed, hconsumer, hr.2.1, hr.2.2]
    exact h.ends.rfifo
  · rw [hclosed, hconsumer, hconfirm]
    exact h.ends.confirm
  · rw [hconsumer]
    exact hstr
  · intro hl
    rw [h.lost hl] at hold
    cases hold
  · intro hpast
    rw [hnew] at hpast
    cases hpast
  · have hbytes := h.confirm
    rw [hconfirm, hconsumer, hnew]
    rwa [hold] at hbytes

/-- **The producer passes an index on**, or none. -/
theorem pass (h : Inv n N s sent back lost) {p : Producer} {q r : Fifo IntByte}
    {sent' back' : List Nat} (hold : s.producer.past = false) (hp : p.past = false)
    (hat : p.At n N s.written)
    (hpending : s.consumer.pre ++ sent' ++ p.post = s.consumer.pre ++ sent ++ s.producer.post)
    (hfree : (s.consumer.post ++ back' ++ p.pre ++ (p.unsent n ++ lost)).Perm
      (s.consumer.post ++ back ++ s.producer.pre ++ (s.producer.unsent n ++ lost)))
    (hq : Carries bytesOf q sent' ∧ q.reader = s.wfifo.reader ∧ q.writer = s.wfifo.writer)
    (hr : Carries bytesOf r back' ∧ r.reader = s.rfifo.reader ∧ r.writer = s.rfifo.writer) :
    Inv n N { s with producer := p, wfifo := q, rfifo := r } sent' back' lost := by
  have hsound := h.sound.reorder hfree
  have hwritten := h.written
  refine h.loop rfl rfl rfl hold hp hat ?_ ?_ hq hr h.str
  · simp only [view] at hsound ⊢
    rwa [hpending]
  · simp only [view, Mailbox.count] at hwritten ⊢
    rwa [hpending]

/-- The slot that the consumer copies from is no free one. -/
theorem str_update (h : Inv n N s sent back lost) {j : Nat}
    (hj : j ∈ (view n s sent back lost).free) (v : Option Nat) (i k : Nat) (str : Option Nat)
    (hk : s.consumer = .copying i k str) : Function.update s.slots j v k = str := by
  have hmem : k ∈ (view n s sent back lost).pending := by simp [view, hk, Consumer.pre]
  have hne : k ≠ j := by
    rintro rfl
    exact h.sound.not_pending hj hmem
  rw [Function.update_of_ne hne]
  exact h.str i k str hk

/-- **The producer writes to a slot** that no message is in, with its hands as they are. -/
theorem touch (h : Inv n N s sent back lost) {p : Producer} {j : Nat} {v : Option Nat}
    (hold : s.producer.past = false) (hp : p.past = false) (hat : p.At n N s.written)
    (hpost : p.post = s.producer.post) (hpre : p.pre = s.producer.pre)
    (hunsent : p.unsent n = s.producer.unsent n) (hj : j ∈ (view n s sent back lost).free)
    (hv : ∀ t, v = some t → t ≤ s.copied.length) :
    Inv n N { s with producer := p, slots := Function.update s.slots j v } sent back lost := by
  have hsound := h.sound.touch hj hv
  have hwritten := h.written
  refine h.loop rfl rfl rfl hold hp hat ?_ ?_ ⟨h.wfifo, rfl, rfl⟩ ⟨h.rfifo, rfl, rfl⟩
    (h.str_update hj v)
  · simp only [view, hpost, hpre, hunsent] at hsound ⊢
    exact hsound
  · simp only [view, Mailbox.count, hpost] at hwritten ⊢
    exact hwritten

/-- **A message is stored.** -/
theorem stored (h : Inv n N s sent back lost) {l : Loop} {j : Nat}
    (hp : s.producer = .storing l j) :
    Inv n N { s with
      producer := .stored l j
      slots := Function.update s.slots j (some (s.written + 1))
      written := s.written + 1 } sent back lost := by
  have hunsent : (Producer.stored l j).unsent n = s.producer.unsent n := by
    rw [hp]
    cases l <;> rfl
  have hpre : s.producer.pre = [j] := by rw [hp]; rfl
  have hpost : s.producer.post = [] := by rw [hp]; rfl
  have hpre' : (Producer.stored l j).pre = [] := rfl
  have hpost' : (Producer.stored l j).post = [j] := rfl
  have hfree : (view n s sent back lost).free.Perm
      (j :: (s.consumer.post ++ back ++ (s.producer.unsent n ++ lost))) := by
    simp only [view, hpre]
    rw [List.append_assoc]
    exact List.perm_middle
  have hsound := h.sound.put hfree
  have hwritten := h.written
  rw [← hwritten] at hsound
  refine h.loop rfl rfl rfl (by rw [hp]; rfl) rfl ?_ ?_ ?_ ⟨h.wfifo, rfl, rfl⟩
    ⟨h.rfifo, rfl, rfl⟩ (h.str_update (hfree.mem_iff.mpr List.mem_cons_self) _)
  · have hat := h.producer
    rw [hp] at hat
    cases l with
    | first i => exact ⟨hat.1, congrArg (· + 1) hat.2⟩
    | again i => exact ⟨hat.1, congrArg (· + 1) hat.2⟩
  · simp only [view, hpost, hpre', hpost', hunsent, List.append_nil] at hsound ⊢
    exact hsound
  · simp only [view, Mailbox.count, hpost, hpost', List.length_append, List.length_nil,
      List.length_singleton] at hwritten ⊢
    omega

/-! ### Ends of the FIFOs -/

/-- Where an end that the consumer should hold is closed, the consumer is behind its loop. -/
theorem consumer_past {k : Nat} {b : Bool} (hb : b = decide (s.consumer.closed < k + 1))
    (hclosed : b = false) : s.consumer.past = true := by
  rw [hclosed] at hb
  have hk : ¬ s.consumer.closed < k + 1 := of_decide_eq_false hb.symm
  cases hp : s.consumer.past with
  | true => rfl
  | false =>
    rw [Consumer.closed_of_past hp] at hk
    omega

theorem producer_past {k : Nat} {b : Bool} (hb : b = decide (s.producer.closed < k + 1))
    (hclosed : b = false) : s.producer.past = true := by
  rw [hclosed] at hb
  have hk : ¬ s.producer.closed < k + 1 := of_decide_eq_false hb.symm
  cases hp : s.producer.past with
  | true => rfl
  | false =>
    rw [Producer.closed_of_past hp] at hk
    omega

/-- A message that is still to be taken keeps the consumer in its loop. -/
theorem in_loop (h : Inv n N s sent back lost) (hw : s.written ≤ N)
    (hpending : 0 < (view n s sent back lost).pending.length) : s.consumer.past = false := by
  have hwritten := h.written
  have hcount : (view n s sent back lost).count =
    s.copied.length + (view n s sent back lost).pending.length := rfl
  cases hp : s.consumer.past with
  | false => rfl
  | true =>
    have := h.all_copied hp
    omega

/-- Behind the consumer's loop nothing is on its way to it. -/
theorem sent_nil (hN : n ≤ N) (h : Inv n N s sent back lost) (hc : s.consumer.past = true) :
    sent = [] := by
  have hwritten := h.written
  have hall := h.all_copied hc
  have hle := h.producer.le hN
  simp only [Mailbox.count, view, List.length_append] at hwritten
  exact List.eq_nil_of_length_eq_zero (by omega)

/-! ### The producer -/

/-- A `read` of the producer gets an index: while a message is missing the consumer is there. -/
theorem reads_back (h : Inv n N s sent back lost) (hw : s.written < N) {bs : List IntByte}
    {q : Fifo IntByte} {j : Nat} (hread : s.rfifo.read 4 = some (bs, q)) (hj : Reads bs j) :
    ∃ back', back = j :: back' ∧ Carries bytesOf q back' ∧ q.reader = s.rfifo.reader ∧
      q.writer = s.rfifo.writer := by
  rcases h.rfifo.read length_bytesOf (by decide) hread with
    ⟨a, back', hback, rfl, hq, hreader, hwriter⟩ | ⟨-, hno⟩
  · rw [hj.eq]
    exact ⟨back', hback, hq, hreader, hwriter⟩
  · have hall := h.all_copied (consumer_past h.ends.rfifo.2 hno)
    have := h.copied_le
    omega

/-- The last `read` of the producer gets the consumer's byte. -/
theorem confirmed (h : Inv n N s sent back lost) (hp : s.producer = .confirm) {bs : List Unit}
    {q : Fifo Unit} (hread : s.confirm.read 1 = some (bs, q)) :
    s.consumer.past = true ∧ q.bytes = [] := by
  have hconfirm := h.confirm
  have hpast : s.consumer.past = true := by
    cases hc : s.consumer.past with
    | true => rfl
    | false =>
      -- the FIFO is empty, and the consumer has it open
      have hwriter := h.ends.confirm.2
      rw [Consumer.closed_of_past hc] at hwriter
      rw [if_neg (fun h => by rw [hc] at h; cases h.1)] at hconfirm
      rw [Fifo.read_eq_none_iff.2 ⟨hconfirm, hwriter⟩] at hread
      cases hread
  refine ⟨hpast, ?_⟩
  rw [if_pos ⟨hpast, by rw [hp]; rfl⟩] at hconfirm
  rw [Fifo.read_eq_some (.inl (by rw [hconfirm]; decide)), hconfirm] at hread
  cases hread
  rfl

/-- Closing `/tmp/wfifo` loses nothing: nothing is in it. -/
theorem closeWrite (hN : n ≤ N) (h : Inv n N s sent back lost) (hp : s.producer = .closing 0) :
    Inv n N { s with producer := .closing 1, wfifo := s.wfifo.closeWriter } sent back lost := by
  obtain ⟨p, c, slots, w, copied, wf, rf, cf⟩ := s
  obtain rfl : p = .closing 0 := hp
  obtain rfl := h.sent_nil hN (h.last rfl)
  have hwf : wf.bytes = [] := h.wfifo
  have hbytes : wf.closeWriter.bytes = [] := by
    rcases wf.closeWriter_bytes with hb | hb
    · exact hb.trans hwf
    · exact hb.1
  exact { h with
    wfifo := hbytes
    producer := ⟨by omega, h.producer.2⟩
    ends := ⟨⟨rfl, h.ends.wfifo.2⟩, h.ends.rfifo, h.ends.confirm⟩ }

/-- Closing `/tmp/rfifo` may lose the indices that are in it. -/
theorem closeRead (h : Inv n N s sent back lost) (hp : s.producer = .closing 1) :
    ∃ sent' back' lost', Inv n N
      { s with producer := .closing 2, rfifo := s.rfifo.closeReader } sent' back' lost' := by
  obtain ⟨p, c, slots, w, copied, wf, rf, cf⟩ := s
  obtain rfl : p = .closing 1 := hp
  have hends : Ends ⟨.closing 2, c, slots, w, copied, wf, rf.closeReader, cf⟩ :=
    ⟨h.ends.wfifo, ⟨rfl, h.ends.rfifo.2⟩, h.ends.confirm⟩
  rcases rf.closeReader_bytes with hb | ⟨hb, -⟩
  · exact ⟨sent, back, lost, { h with
      rfifo := hb.trans h.rfifo
      producer := ⟨by omega, h.producer.2⟩
      ends := hends }⟩
  · refine ⟨sent, [], back ++ lost, { h with
      sound := ?_
      rfifo := hb
      producer := ⟨by omega, h.producer.2⟩
      ends := hends
      lost := fun _ => rfl }⟩
    refine h.sound.reorder (f := c.post ++ [] ++ [] ++ ([] ++ (back ++ lost))) ?_
    simp [view, Producer.pre, Producer.unsent]

theorem closeConfirm (h : Inv n N s sent back lost) (hp : s.producer = .closing 2) :
    Inv n N { s with producer := .done, confirm := s.confirm.closeReader } sent back lost := by
  obtain ⟨p, c, slots, w, copied, wf, rf, cf⟩ := s
  obtain rfl : p = .closing 2 := hp
  have hcf : cf.bytes = [] := h.confirm.trans (if_neg fun hc => by cases hc.2)
  have hbytes : cf.closeReader.bytes = [] := by
    rcases cf.closeReader_bytes with hb | hb
    · exact hb.trans hcf
    · exact hb.1
  exact { h with
    producer := h.producer.2
    ends := ⟨h.ends.wfifo, h.ends.rfifo, ⟨rfl, h.ends.confirm.2⟩⟩
    confirm := hbytes.trans (if_neg fun hc => by cases hc.2).symm }

/-! ### The steps of the producer -/

theorem fill (h : Inv n N s sent back lost) {i : Nat} (hp : s.producer = .fill i) (hi : i < n) :
    Inv n N { s with producer := .fill (i + 1), slots := Function.update s.slots i (some 0) }
      sent back lost := by
  have hat := h.producer
  rw [hp] at hat
  refine h.touch (by rw [hp]; rfl) rfl ⟨hi, hat.2⟩ (by rw [hp]; rfl) (by rw [hp]; rfl)
    (by rw [hp]; rfl) ?_ fun t ht => ?_
  · have hi : i ∈ List.range' 0 n := List.mem_range'_1.mpr ⟨by omega, by omega⟩
    simp [view, hp, Producer.unsent, hi]
  · cases ht
    omega

/-- **The producer goes on** with the FIFOs as they are. -/
theorem goOn (h : Inv n N s sent back lost) {p : Producer} (hold : s.producer.past = false)
    (hp : p.past = false) (hat : p.At n N s.written) (hpost : p.post = s.producer.post)
    (hfree : (p.pre ++ p.unsent n).Perm (s.producer.pre ++ s.producer.unsent n)) :
    Inv n N { s with producer := p } sent back lost := by
  refine h.pass hold hp hat (by rw [hpost]) ?_ ⟨h.wfifo, rfl, rfl⟩ ⟨h.rfifo, rfl, rfl⟩
  simp only [List.append_assoc]
  rw [← List.append_assoc p.pre, ← List.append_assoc s.producer.pre]
  exact ((hfree.append_right lost).append_left back).append_left s.consumer.post

/-- In its first loop the producer takes the indices one by one. -/
theorem first (h : Inv n N s sent back lost) {i : Nat} (hp : s.producer = .first i)
    (hi : i < n) : Inv n N { s with producer := .hold (.first i) i } sent back lost := by
  have hat := h.producer
  rw [hp] at hat
  refine h.goOn (by rw [hp]; rfl) rfl ⟨hi, hat.2⟩ (by rw [hp]; rfl) ?_
  have hrange : List.range' i (n - i) = i :: List.range' (i + 1) (n - (i + 1)) := by
    rw [show n - i = n - (i + 1) + 1 by omega, List.range'_succ]
  rw [hp]
  simp only [Producer.pre, Producer.unsent, hrange]
  exact List.Perm.refl _

theorem firstDone (h : Inv n N s sent back lost) {i : Nat} (hp : s.producer = .first i)
    (hi : ¬ i < n) : Inv n N { s with producer := .again 0 } sent back lost := by
  have hat := h.producer
  rw [hp] at hat
  refine h.goOn (by rw [hp]; rfl) rfl ⟨Nat.zero_le _, ?_⟩ (by rw [hp]; rfl) ?_
  · have := hat.1
    have := hat.2
    omega
  · have hnil : n - i = 0 := by omega
    rw [hp]
    simp only [Producer.pre, Producer.unsent, hnil, List.range'_zero]
    exact List.Perm.refl _

/-- In its second loop the producer takes the index that has come back first. -/
theorem again (h : Inv n N s sent back lost) {i j : Nat} {bs : List IntByte} {q : Fifo IntByte}
    (hp : s.producer = .again i) (hi : i < N - n) (hread : s.rfifo.read 4 = some (bs, q))
    (hj : Reads bs j) : ∃ back', Inv n N { s with producer := .hold (.again i) j, rfifo := q }
      sent back' lost := by
  have hat := h.producer
  rw [hp] at hat
  have hw : s.written < N := by
    have := hat.2
    omega
  obtain ⟨back', rfl, hq⟩ := h.reads_back hw hread hj
  refine ⟨back', h.pass (by rw [hp]; rfl) rfl ⟨hi, hat.2⟩ (by rw [hp]; rfl) ?_
    ⟨h.wfifo, rfl, rfl⟩ hq⟩
  rw [hp]
  simp only [Producer.pre, Producer.unsent, List.append_nil]
  rw [List.append_assoc s.consumer.post]
  exact (List.perm_append_comm.append_left _).append_right _

theorem againDone (h : Inv n N s sent back lost) {i : Nat} (hp : s.producer = .again i)
    (hi : ¬ i < N - n) (hN : n ≤ N) : Inv n N { s with producer := .confirm } sent back lost := by
  have hat := h.producer
  rw [hp] at hat
  refine h.goOn (by rw [hp]; rfl) rfl ?_ (by rw [hp]; rfl) (by rw [hp]; exact List.Perm.refl _)
  show s.written = N
  have := hat.1
  have := hat.2
  omega

/-- The `memcpy` of the producer begins. -/
theorem store (h : Inv n N s sent back lost) {l : Loop} {j : Nat} (hp : s.producer = .hold l j) :
    Inv n N { s with producer := .storing l j, slots := Function.update s.slots j none }
      sent back lost := by
  have hat := h.producer
  refine h.touch (by rw [hp]; rfl) rfl ?_ (by rw [hp]; rfl) (by rw [hp]; rfl) ?_ ?_
    fun t ht => by cases ht
  · rw [hp] at hat
    cases l with
    | first i => exact hat
    | again i => exact hat
  · rw [hp]
    cases l <;> rfl
  · simp [view, hp, Producer.pre]

/-- The producer passes the index of its message on. -/
theorem write (h : Inv n N s sent back lost) {l : Loop} {j : Nat} {q : Fifo IntByte}
    (hp : s.producer = .stored l j) (hwrite : s.wfifo.write (bytesOf j) = some q) :
    Inv n N { s with producer := l.next, wfifo := q } (sent ++ [j]) back lost := by
  have hat := h.producer
  rw [hp] at hat
  have hpost : l.next.post = [] := by cases l <;> rfl
  have hpre : l.next.pre = [] := by cases l <;> rfl
  have hunsent : l.next.unsent n = (Producer.stored l j).unsent n := by cases l <;> rfl
  refine h.pass (by rw [hp]; rfl) (by cases l <;> rfl) ?_ ?_ ?_ (h.wfifo.write hwrite)
    ⟨h.rfifo, rfl, rfl⟩
  · cases l with
    | first i => exact hat
    | again i => exact ⟨hat.1, hat.2⟩
  · rw [hp, hpost]
    simp [Producer.post]
  · rw [hp, hpre, hunsent]
    exact List.Perm.refl _

/-- The consumer is there for a message that was written. -/
theorem consumer_there (hN : n ≤ N) (h : Inv n N s sent back lost) {l : Loop} {j : Nat}
    (hp : s.producer = .stored l j) : s.wfifo.reader = true := by
  have hpending : 0 < (view n s sent back lost).pending.length := by
    simp only [view, hp, Producer.post, List.length_append, List.length_singleton]
    omega
  have hreader := h.ends.wfifo.2
  rwa [Consumer.closed_of_past (h.in_loop (h.producer.le hN) hpending)] at hreader

/-- With the consumer's byte the producer leaves. -/
theorem leave (h : Inv n N s sent back lost) {bs : List Unit} {q : Fifo Unit}
    (hp : s.producer = .confirm) (hread : s.confirm.read 1 = some (bs, q)) :
    Inv n N { s with producer := .closing 0, confirm := q } sent back lost := by
  have hat := h.producer
  rw [hp] at hat
  obtain ⟨hpast, hbytes⟩ := h.confirmed hp hread
  obtain ⟨hq, hreader, hwriter⟩ := Fifo.bytes_of_read hread
  have hends := h.ends.confirm
  have hends₁ := h.ends.wfifo
  have hends₂ := h.ends.rfifo
  rw [hp] at hends hends₁ hends₂
  refine
    { sound := ?_, written := ?_, wfifo := h.wfifo, rfifo := h.rfifo,
      producer := ⟨by omega, hat⟩, consumer := h.consumer, ends := ⟨hends₁, hends₂, ?_⟩,
      str := h.str, lost := fun _ => rfl, last := fun _ => hpast, confirm := ?_ }
  · have hsound := h.sound
    simp only [view, hp] at hsound
    exact hsound
  · have hwritten := h.written
    simp only [view, Mailbox.count, hp] at hwritten
    exact hwritten
  · show q.reader = decide (0 < 3) ∧ q.writer = decide (s.consumer.closed < 3)
    rw [hreader, hwriter]
    exact hends
  · show q.bytes = if s.consumer.past = true ∧ (Producer.closing 0).past = false then [()] else []
    rw [if_neg (fun hc => by cases hc.2)]
    exact hbytes

/-- **Every step of the producer.** -/
theorem producerStep (hN : n ≤ N) (h : Inv n N s sent back lost) (hst : ProducerStep n N s s') :
    ∃ sent' back' lost', Inv n N s' sent' back' lost' := by
  cases hst with
  | fill hp hi => exact ⟨sent, back, lost, h.fill hp hi⟩
  | filled hp hi =>
    have hat := h.producer
    rw [hp] at hat
    exact ⟨sent, back, lost, h.goOn (by rw [hp]; rfl) rfl ⟨Nat.zero_le n, hat.2⟩
      (by rw [hp]; rfl) (by rw [hp]; exact List.Perm.refl _)⟩
  | first hp hi => exact ⟨sent, back, lost, h.first hp hi⟩
  | firstDone hp hi => exact ⟨sent, back, lost, h.firstDone hp hi⟩
  | again hp hi hread hj =>
    obtain ⟨back', h'⟩ := h.again hp hi hread hj
    exact ⟨sent, back', lost, h'⟩
  | againDone hp hi => exact ⟨sent, back, lost, h.againDone hp hi hN⟩
  | store hp => exact ⟨sent, back, lost, h.store hp⟩
  | stored hp => exact ⟨sent, back, lost, h.stored hp⟩
  | @write l j q hp hwrite => exact ⟨sent ++ [j], back, lost, h.write hp hwrite⟩
  | writeFails hp hwrite =>
    rw [Fifo.write_eq_some (h.consumer_there hN hp)] at hwrite
    cases hwrite
  | confirm hp hread => exact ⟨sent, back, lost, h.leave hp hread⟩
  | closeWrite hp => exact ⟨sent, back, lost, h.closeWrite hN hp⟩
  | closeRead hp => exact h.closeRead hp
  | closeConfirm hp => exact ⟨sent, back, lost, h.closeConfirm hp⟩

end Inv

end Steps

end OsCodes.Ring
