/-
  Runs of the chat: what clean runs deliver, and a run that loses a line.

  `ChatLaw` has shown what one step of either program keeps.  Here the steps are put together:

  1. `Inv.start`: before the two programs have opened the FIFO, all lines are still to be typed;
  2. `Inv.step` and `Inv.of_reach`: every state of a run whose steps are `Allowed`, that is, whose
     writes are heard and whose reads and closes are clean, satisfies the invariant;
  3. `Inv.inOrder`: what has been printed is then a beginning of the dialogue, since the lines
     that are printed, read, in the FIFO, in the sender's hands and still to be typed are always
     the whole dialogue, in this order;
  4. `Inv.goes`: until the receiver has stopped, one of the programs has a step.  A program waits
     in `open` for the other one only, a `read` waits at an empty FIFO that somebody may write to
     only, and the invariant leaves no state in which both wait;
  5. `chat_delivers`: so every such run prints all lines once and in order, and since each step
     makes `rank` smaller, it has an end.

  That the two conditions are needed is shown by runs that are computed: `inTurns` is a clean run,
  and `hasty` is one in which the sender comes back before the receiver has read.  There a `read`
  of 100 bytes takes two lines, and the receiver prints the first and drops the other
  (`chat_loses_line`).
-/
import OsCodes.Ipc.ChatLaw

namespace OsCodes.Chat

open Bytes (CStr)

section Runs

variable {before : List CStr} {s s' : State} {sent : List CStr}

/-- The steps of a clean run. -/
def Allowed (s : State) (p : Party) : Prop := Heard s p ∧ Clean s p

namespace Inv

theorem start (hbefore : Dialogue before) (h : Start (before ++ [endLine]) s) :
    Inv before s [] := by
  obtain ⟨x, y, q, input, arr, printed⟩ := s
  obtain ⟨hx, hy, hq, hinput, hprinted⟩ := h
  obtain rfl : x = .opening := hx
  obtain rfl : y = .opening := hy
  obtain rfl : q = ⟨[], false, false⟩ := hq
  obtain rfl : input = before ++ [endLine] := hinput
  obtain rfl : printed = [] := hprinted
  exact
    { whole := rfl, noEnd := List.not_mem_nil, carries := rfl
      short := fun _ hl => absurd hl List.not_mem_nil
      rest := ⟨before, rfl, hbefore⟩, writer := rfl, reader := rfl
      senderWaits := fun hw => by cases hw
      receiverWaits := fun hw => by cases hw
      kept := fun _ _ => rfl
      ended := fun hw => by cases hw }

/-- **The step lemma**: a clean step of either program keeps the invariant, with the lines that are
    then in the FIFO. -/
theorem step (hbefore : Dialogue before) (h : Inv before s sent) {p : Party} (hok : Allowed s p)
    (hst : s.step p = some s') : Goes before s s' := by
  cases p with
  | sender => exact h.send hok.1 hok.2 hst
  | receiver => exact h.receive hbefore hok.2 hst

/-- **The run lemma**: in every state of a clean run over the FIFO the invariant holds for some
    lines on the way. -/
theorem of_reach (hbefore : Dialogue before)
    (h : ((chat (before ++ [endLine])).guard Allowed).Reach s) : ∃ sent, Inv before s sent := by
  refine h.invariant (I := fun s => ∃ sent, Inv before s sent) ?_ ?_
  · exact fun s hs => ⟨[], start hbefore hs⟩
  · rintro s e s' ⟨sent, hs⟩ hst
    exact (hs.step hbefore hst.1 hst.2).1

/-- What is printed are the first lines. -/
theorem inOrder (h : Inv before s sent) : s.printed <+: before.map CStr.chars := by
  have hwhole := h.whole
  rw [List.append_assoc, List.map_append, List.map_append, List.map_append,
    List.map_singleton] at hwhole
  rcases List.append_eq_append_iff.mp hwhole with ⟨a, hbefore, -⟩ | ⟨c, hprinted, hc⟩
  · exact ⟨a, hbefore.symm⟩
  · cases c with
    | nil => exact ⟨[], by rw [List.append_nil, hprinted, List.append_nil]⟩
    | cons d c =>
      obtain ⟨rfl, -⟩ := List.cons.inj hc
      exact absurd (by rw [hprinted]; simp) h.noEnd

/-- **One of the programs goes on** until the receiver has stopped. -/
theorem goes (h : Inv before s sent) (hdone : s.receiver ≠ .done) :
    ∃ p s', s.step p = some s' := by
  obtain ⟨x, y, q, input, arr, printed⟩ := s
  -- a sender with the FIFO open goes on, if it need not wait
  have hsender : x.holds = true → x ≠ .blocked →
      ∃ s', State.send ⟨x, y, q, input, arr, printed⟩ = some s' := by
    intro hholds hblocked
    cases x with
    | opened =>
      cases input with
      | nil => exact absurd rfl (toEnd_ne_nil h.rest)
      | cons l input => exact ⟨_, rfl⟩
    | typed l =>
      simp only [State.send]
      split
      · exact ⟨_, rfl⟩
      · exact ⟨_, rfl⟩
    | wrote l => exact ⟨_, rfl⟩
    | blocked => exact absurd rfl hblocked
    | _ => cases hholds
  -- nobody waits in `open` for a receiver that is there
  have hblocked : y.holds = true → x ≠ .blocked := by
    intro hholds hx
    have hreader := h.senderWaits hx
    rw [h.reader] at hreader
    exact absurd (hholds.symm.trans hreader) (by decide)
  cases y with
  | opening =>
    refine ⟨.receiver, ?_⟩
    simp only [State.step, State.receive]
    split
    · exact ⟨_, rfl⟩
    · exact ⟨_, rfl⟩
  | blocked =>
    obtain ⟨hwriter, hempty⟩ := h.receiverWaits rfl
    have hwriter : q.writer = false := hwriter
    have hnil : sent = [] := by
      have hcarries : q.bytes = sent.flatMap frame := h.carries
      cases sent with
      | nil => rfl
      | cons l ls =>
        have hempty : q.bytes = [] := hempty
        rw [hempty, List.flatMap_cons, frame] at hcarries
        simp at hcarries
    have hpos := h.unread_pos rfl
    have hrest := h.rest
    cases x with
    | opening =>
      refine ⟨.sender, ?_⟩
      simp only [State.step, State.send]
      split
      · exact ⟨_, rfl⟩
      · exact ⟨_, rfl⟩
    | done =>
      -- the sender has stopped, and every line has been read
      have hinput : input = [] := hrest
      rw [hnil, hinput] at hpos
      cases hpos
    | killed => exact hrest.elim
    | _ =>
      have hfalse : false = true := hwriter.symm.trans h.writer
      cases hfalse
  | opened =>
    cases hread : q.read 100 with
    | some r =>
      refine ⟨.receiver, ?_⟩
      simp only [State.step, State.receive, hread]
      exact ⟨_, rfl⟩
    | none =>
      have hwriter := (Fifo.read_eq_none_iff.mp hread).2
      obtain ⟨s', hst⟩ := hsender (h.writer.symm.trans hwriter) (hblocked rfl)
      exact ⟨.sender, s', hst⟩
  | got =>
    refine ⟨.receiver, ?_⟩
    simp only [State.step, State.receive]
    split
    · exact ⟨_, rfl⟩
    · exact ⟨_, rfl⟩
  | printed => exact ⟨.receiver, _, rfl⟩
  | done => exact absurd rfl hdone

theorem delivered (hbefore : Dialogue before) (h : Inv before s sent) : Delivered before s where
  inOrder := h.inOrder
  all hdone := by
    refine (h.at_end hbefore ?_).1
    rw [hdone]
    exact congrArg (fun c => [c]) (h.ended hdone)
  goes := h.goes

theorem rank_le (h : Inv before s sent) : rank before s ≤ 8 * before.length + 16 := by
  have hlen := h.length
  have hs : s.sender.rank s.input.length ≤ 4 * (s.sender.hand.length + s.input.length) + 1 := by
    cases s.sender <;> simp only [Sender.rank, Sender.hand, List.length_nil, List.length_singleton]
      <;> omega
  have hr : s.receiver.rank (unread before s) ≤
      4 * ((s.receiver.hand s.arr).length + unread before s) + 1 := by
    generalize unread before s = k
    cases s.receiver <;>
      simp only [Receiver.rank, Receiver.hand, List.length_nil, List.length_singleton] <;> omega
  simp only [rank]
  have hunread : (s.receiver.hand s.arr).length + unread before s ≤ before.length + 1 := by
    simp only [unread]
    omega
  omega

end Inv

end Runs

/-- **The chat delivers.**  In every run in which no write is without a reader, every read takes
    the bytes of one line and no close leaves bytes in a FIFO without ends: the receiver prints
    the lines before `end` in order, all of them when it stops; until then one of the programs
    goes on; and the run ends. -/
theorem chat_delivers {before : List CStr} (hbefore : Dialogue before) {s : State}
    (h : ((chat (before ++ [endLine])).guard Allowed).Reach s) :
    Delivered before s ∧ ∀ trs s', ((chat (before ++ [endLine])).guard Allowed).Run s trs s' →
      trs.length ≤ 8 * before.length + 16 := by
  obtain ⟨sent, hinv⟩ := Inv.of_reach hbefore h
  refine ⟨hinv.delivered hbefore, fun trs s' hrun => ?_⟩
  refine Nat.le_trans (Lts.Run.length_le (I := fun s => ∃ sent, Inv before s sent)
    (μ := rank before) ?_ hrun ⟨sent, hinv⟩) hinv.rank_le
  rintro s e s' ⟨sent, hs⟩ hst
  exact hs.step hbefore hst.1 hst.2

/-! ## Two runs -/

instance (s : State) : (p : Party) → Decidable (Heard s p)
  | .sender => inferInstanceAs (Decidable (_ → _))
  | .receiver => .isTrue trivial

instance (s : State) : (p : Party) → Decidable (Clean s p)
  | .sender => inferInstanceAs (Decidable (_ → _))
  | .receiver => inferInstanceAs (Decidable ((_ → _ ∧ _) ∧ (_ → _)))

instance (s : State) (p : Party) : Decidable (Allowed s p) := inferInstanceAs (Decidable (_ ∧ _))

/-- The state after these steps, if all are possible and allowed. -/
def runChat (ok : State → Party → Prop) [∀ s p, Decidable (ok s p)] :
    List Party → State → Option State
  | [], s => some s
  | p :: ps, s => if ok s p then (s.step p).bind (runChat ok ps) else none

theorem runChat_reach {lines : List CStr} {ok : State → Party → Prop}
    [∀ s p, Decidable (ok s p)] {s' : State} : ∀ (ps : List Party) {s : State},
      ((chat lines).guard ok).Reach s → runChat ok ps s = some s' →
      ((chat lines).guard ok).Reach s' := by
  intro ps
  induction ps with
  | nil =>
    intro s h hrun
    cases hrun
    exact h
  | cons p ps ih =>
    intro s h hrun
    rw [runChat] at hrun
    split at hrun
    · rename_i hok
      obtain ⟨s₁, hst, hrun⟩ := Option.bind_eq_some_iff.mp hrun
      exact ih (.step h ⟨hok, hst⟩) hrun
    · cases hrun

/-- The beginning, with a buffer that was never written. -/
def atStart (lines : List CStr) : State :=
  ⟨.opening, .opening, ⟨[], false, false⟩, lines, List.replicate 100 0, []⟩

theorem atStart_reach (lines : List CStr) {ok : State → Party → Prop} :
    ((chat lines).guard ok).Reach (atStart lines) := .start ⟨rfl, rfl, rfl, rfl, rfl⟩

/-- `"a\n"` -/
def lineA : CStr := ⟨[97, 10], by decide⟩

/-- Each line is read and the FIFO closed before the sender comes back. -/
def inTurns : List Party :=
  [.receiver, .sender, .sender, .sender, .receiver, .sender, .receiver, .receiver, .sender,
    .receiver, .sender, .sender, .receiver, .receiver]

/-- Two lines are written before the first read. -/
def hasty : List Party :=
  [.receiver, .sender, .sender, .sender, .sender, .sender, .sender, .sender, .sender, .receiver,
    .receiver, .receiver, .receiver, .sender, .sender, .sender, .receiver, .receiver]

/-- One line and the end, each read before the sender comes back. -/
theorem chat_delivers_one : ∃ s, s.receiver = .done ∧ s.printed = [[97, 10]] ∧
    Delivered [lineA] s := by
  have hrun : (runChat Allowed inTurns (atStart [lineA, endLine])).map
      (fun s => (s.receiver, s.printed)) = some (.done, [[97, 10]]) := by decide +kernel
  obtain ⟨s, hs, hfinal⟩ := Option.map_eq_some_iff.mp hrun
  have hreach := runChat_reach inTurns (atStart_reach [lineA, endLine]) hs
  obtain ⟨hdone, hprinted⟩ := Prod.mk.inj hfinal
  have hdialogue : Dialogue [lineA] := by
    intro l hl
    obtain rfl := List.mem_singleton.mp hl
    exact ⟨by decide, by decide⟩
  exact ⟨s, hdone, hprinted, (chat_delivers hdialogue hreach).1⟩

/-- **The chat loses a line.**  The sender comes back before the receiver has read, and the
    receiver prints one of two lines that it has read at once. -/
theorem chat_loses_line : ¬ ∀ before, Dialogue before → ∀ s,
    ((chat (before ++ [endLine])).guard Heard).Reach s → Delivered before s := by
  intro h
  have hrun : (runChat Heard hasty (atStart [lineA, lineA, endLine])).map
      (fun s => (s.receiver, s.printed)) = some (.done, [[97, 10]]) := by decide +kernel
  obtain ⟨s, hs, hfinal⟩ := Option.map_eq_some_iff.mp hrun
  obtain ⟨hdone, hprinted⟩ := Prod.mk.inj hfinal
  have hdialogue : Dialogue [lineA, lineA] := by
    intro l hl
    simp only [List.mem_cons, List.not_mem_nil, or_false, or_self] at hl
    rw [hl]
    exact ⟨by decide, by decide⟩
  have hall := (h [lineA, lineA] hdialogue s
    (runChat_reach hasty (atStart_reach [lineA, lineA, endLine]) hs)).all hdone
  rw [hprinted] at hall
  cases hall

end OsCodes.Chat
