/-
  What goes through a pipe, and who sleeps at it.

  `Record` collects the bytes that were stored, with the process that stored each, the bytes that
  were returned by `piperead`, and what each process has passed to `pipewrite`.  `Queue` says that
  the buffer holds the difference, although the counters wrap around.

  A process sleeps in `pipewrite` at a full pipe only.  One that sleeps in `piperead` does so at an
  empty pipe unless some writer was killed: a killed `pipewrite` that fills the pipe returns without
  its `wakeup` (`stalls`).

  1. `Queue` is the invariant of the bytes: what was stored is what was returned and what is in
     the buffer, in this order, and what a process has passed to `pipewrite` is what it has stored
     and what it has still to store;
  2. `Sleeps` is the invariant of the sleepers.  A writer sleeps at a full pipe whose other end is
     open.  For readers the same is shown of runs without `kill` only;
  3. `stalls` is the run that needs `kill`, in four steps: `exists_doomed` gives a second process
     the writing end and kills it, `sleeps_doomed` puts the reader to sleep, `fills_doomed` fills
     the pipe without a `wakeup`, and `exits_doomed` closes the last descriptor that could have
     woken anybody;
  4. `pipe_fifo` and `pipe_sleepers_iff` are the laws.
-/
import OsCodes.Xv6.PipeLaw

namespace OsCodes.Pipes

open Monitor

variable {τ : Type} [DecidableEq τ]

/-! ## The record of a run -/

/-- What went in, what came out, and what each process has passed to `pipewrite`. -/
structure Record (τ : Type) where
  sent : List (τ × UInt8)
  recvd : List UInt8
  given : τ → List UInt8

/-- A call that fails has lost the last `k` bytes of what `t` passed. -/
def kept (given : τ → List UInt8) (t : τ) (k : Nat) : Next Client Channel Wait → τ → List UInt8
  | .leave (.idle .failed) => Function.update given t ((given t).rdrop k)
  | _ => given

theorem kept_of_ne {given : τ → List UInt8} {t u : τ} (h : u ≠ t) (k : Nat)
    (x : Next Client Channel Wait) : kept given t k x u = given u := by
  unfold kept
  split
  · exact Function.update_of_ne h _ _
  · rfl

namespace Record

/-- After `pipewrite` of `t` with `rest` left. -/
def wrote (g : Record τ) (t : τ) (n : Nat) (rest : List UInt8) (s : Shared τ) : Record τ :=
  let left := (s.pipe.copyIn rest).2
  let stored := rest.take (rest.length - left.length)
  { g with
    sent := g.sent ++ stored.map fun b => (t, b)
    given := kept g.given t left.length (pipewrite n rest t s).next }

/-- After `piperead` of `t`. -/
def took (g : Record τ) (t : τ) (n : Nat) (s : Shared τ) : Record τ :=
  match (piperead n t s).next with
  | .leave (.idle (.read _ bytes)) => { g with recvd := g.recvd ++ bytes }
  | _ => g

/-- After an event in `s`. -/
def after (s : St τ) (g : Record τ) : Event τ (Call τ) → Record τ
  | .enter t (.filewrite true bytes) =>
    { g with given := Function.update g.given t (g.given t ++ bytes) }.wrote t bytes.length bytes
      s.shared
  | .enter t (.fileread false n) => g.took t n s.shared
  | .resume t =>
    match s.status t with
    | .woken (.write n rest) => g.wrote t n rest s.shared
    | .woken (.read n) => g.took t n s.shared
    | _ => g
  | _ => g

end Record

/-- The runs with their record. -/
def recorded (kills : Bool) (t₀ : τ) : Lts (St τ × Record τ) (Event τ (Call τ)) :=
  ((Monitor.system (code τ) .some (made t₀)).withGhost ⟨[], [], fun _ => []⟩ Record.after).guard
    fun x e => holds kills x.1 e

/-- What a process still has to write in its call. -/
def pending : Status Client Channel Wait → List UInt8
  | .blocked _ (.write _ rest) | .woken (.write _ rest) => rest
  | _ => []

/-- What `t` has stored. -/
def Record.sentBy (g : Record τ) (t : τ) : List UInt8 :=
  (g.sent.filter fun x => x.1 = t).map Prod.snd

/-- The last call of a process was a `piperead` of `n` bytes that returned `bytes`. -/
def returned : Status Client Channel Wait → Nat → List UInt8 → Prop
  | .out (.idle (.read n bytes)), n', bytes' => n' = n ∧ bytes' = bytes
  | _, _, _ => False

/-- **The pipe as a queue.** -/
structure Queue (s : St τ) (g : Record τ) : Prop where
  fits : s.shared.pipe.Fits
  fifo : g.sent.map Prod.snd = g.recvd ++ s.shared.pipe.contents
  order : ∀ t, g.sentBy t ++ pending (s.status t) = g.given t
  result : ∀ t n bytes, returned (s.status t) n bytes → bytes.length ≤ n ∧
    (0 < n → bytes = [] → s.shared.pipe.isEmpty = true ∧ s.shared.pipe.writeopen = false)

theorem pending_woken {st st' : Status Client Channel Wait}
    (h : st' = st ∨ ∃ c p, st = .blocked c p ∧ st' = .woken p) :
    pending st' = pending st ∧ returned st' = returned st := by
  rcases h with rfl | ⟨c, p, rfl, rfl⟩
  · exact ⟨rfl, rfl⟩
  · cases p with
    | write n rest => exact ⟨rfl, rfl⟩
    | read n => exact ⟨rfl, rfl⟩

namespace Record

/-- What `pipewrite` has stored, as `copyIn` says. -/
theorem wrote_sent {g : Record τ} {t : τ} {n : Nat} {rest stored : List UInt8} {s : Shared τ}
    (h : rest = stored ++ (s.pipe.copyIn rest).2) :
    (g.wrote t n rest s).sent = g.sent ++ stored.map fun b => (t, b) := by
  have htake : rest.take (rest.length - (s.pipe.copyIn rest).2.length) = stored := by
    generalize (s.pipe.copyIn rest).2 = left at h
    rw [h, List.length_append, Nat.add_sub_cancel, List.take_left']
    rfl
  show g.sent ++ (rest.take _).map _ = _
  rw [htake]

theorem sentBy_append {g g' : Record τ} {t : τ} {stored : List UInt8}
    (h : g'.sent = g.sent ++ stored.map fun b => (t, b)) :
    g'.sentBy = Function.update g.sentBy t (g.sentBy t ++ stored) := by
  funext u
  rw [sentBy, h, List.filter_append, List.map_append, List.filter_map]
  by_cases hu : u = t
  · rw [hu, Function.update_self]
    congr 1
    simp [Function.comp_def]
  · rw [Function.update_of_ne hu]
    have hne : ¬ t = u := fun h => hu h.symm
    simp [Function.comp_def, hne, sentBy]

end Record

namespace Queue

variable {s s' : St τ} {g : Record τ} {t : τ}

theorem initial {t₀ : τ} (h : made t₀ s) : Queue s ⟨[], [], fun _ => []⟩ := by
  obtain ⟨⟨data, hs⟩, hout⟩ := h
  have hempty : s.shared.pipe.isEmpty = true := by rw [hs]; rfl
  refine ⟨?_, ?_, fun t => by rw [hout t]; rfl, fun t n bytes hr => ?_⟩
  · rw [RingBuffer.Fits, RingBuffer.isEmpty_iff.mp hempty]
    exact Nat.zero_le _
  · rw [RingBuffer.contents_eq_nil_iff.mpr hempty]
    rfl
  · rw [hout t] at hr
    exact absurd hr id

/-- **A stretch that leaves the buffer alone.** -/
theorem quiet (h : Queue s g) {x : Body τ} (hrun : Runs .some t x s s')
    (hpipe : x.shared.pipe.toRingBuffer = s.shared.pipe.toRingBuffer)
    (hclosed : s.shared.pipe.writeopen = false → x.shared.pipe.writeopen = false)
    (hpend : pending x.next.status = pending (s.status t))
    (hret : ∀ n bytes, ¬ returned x.next.status n bytes) : Queue s' g := by
  have hshared := hrun.shared
  have hring : s'.shared.pipe.toRingBuffer = s.shared.pipe.toRingBuffer := by rw [hshared, hpipe]
  refine ⟨?_, ?_, fun u => ?_, fun u n bytes hr => ?_⟩
  · rw [hring]
    exact h.fits
  · rw [hring]
    exact h.fifo
  · rw [← h.order u]
    by_cases hu : u = t
    · rw [hu, hrun.self, hpend]
    · rw [(pending_woken (hrun.other hu)).1]
  · by_cases hu : u = t
    · rw [hu, hrun.self] at hr
      exact absurd hr (hret n bytes)
    · rw [(pending_woken (hrun.other hu)).2] at hr
      obtain ⟨hle, hend⟩ := h.result u n bytes hr
      refine ⟨hle, fun hn hb => ?_⟩
      obtain ⟨hempty, hclose⟩ := hend hn hb
      rw [hring, hshared]
      exact ⟨hempty, hclosed hclose⟩

theorem stirred (h : Queue s g) (hs : s'.shared = s.shared) (hst : Stirred s.status s'.status) :
    Queue s' g := by
  obtain ⟨hfits, hfifo, horder, hresult⟩ := h
  rw [← hs] at hfits hfifo hresult
  refine ⟨hfits, hfifo, fun u => ?_, fun u n bytes hr => hresult u n bytes ?_⟩
  · rw [(pending_woken (hst u)).1]
    exact horder u
  · rw [← (pending_woken (hst u)).2]
    exact hr

/-- **`pipewrite`**, where `t` has passed what it has stored and what is left. -/
theorem wrote (h : Queue s g) {n : Nat} {rest : List UInt8} {given : τ → List UInt8}
    (hopen : s.shared.pipe.writeopen = true) (ht : g.sentBy t ++ rest = given t)
    (hother : ∀ u, u ≠ t → given u = g.given u)
    (hrun : Runs .some t (pipewrite n rest t s.shared) s s') :
    Queue s' ({ g with given := given }.wrote t n rest s.shared) := by
  obtain ⟨stored, hrest, hcontents, hfits⟩ := Pipe.copyIn_spec rest s.shared.pipe h.fits
  have hsent := Record.wrote_sent (g := { g with given := given }) (t := t) (n := n) hrest
  have hby := Record.sentBy_append hsent
  have hshared := hrun.shared
  have hpipe : s'.shared.pipe = (s.shared.pipe.copyIn rest).1 := by
    rw [hshared]
    rcases pipewrite_cases n rest s.shared t with ⟨-, hx⟩ | ⟨-, -, hx⟩ | ⟨-, -, hx⟩ <;> rw [hx]
  refine ⟨by rw [hpipe]; exact hfits, ?_, fun u => ?_, fun u m bytes hr => ?_⟩
  · rw [hsent, List.map_append, hpipe, hcontents, ← List.append_assoc]
    show g.sent.map Prod.snd ++ _ = _
    rw [h.fifo]
    congr 1
    simp [Function.comp_def]
  · rw [hby]
    by_cases hu : u = t
    · have hlost : (given t).rdrop (s.shared.pipe.copyIn rest).2.length = g.sentBy t ++ stored := by
        rw [← ht]
        generalize (s.shared.pipe.copyIn rest).2 = left at hrest
        rw [hrest, ← List.append_assoc, List.rdrop_append_length]
      rw [hu, Function.update_self, hrun.self]
      show g.sentBy t ++ stored ++ _ = kept given t _ _ t
      rcases pipewrite_cases n rest s.shared t with ⟨hdone, hx⟩ | ⟨-, -, hx⟩ | ⟨-, -, hx⟩
      · rw [hx]
        show _ ++ [] = given t
        rw [List.append_nil, ← ht]
        rw [hdone, List.append_nil] at hrest
        rw [hrest]
      · rw [hx]
        show _ ++ [] = Function.update given t _ t
        rw [List.append_nil, Function.update_self, hlost]
      · rw [hx]
        show _ ++ (s.shared.pipe.copyIn rest).2 = given t
        rw [List.append_assoc, ← hrest, ht]
    · rw [Function.update_of_ne hu, (pending_woken (hrun.other hu)).1]
      show g.sentBy u ++ _ = kept given t _ _ u
      rw [h.order u, kept_of_ne hu, hother u hu]
  · by_cases hu : u = t
    · rw [hu, hrun.self] at hr
      rcases pipewrite_cases n rest s.shared t with ⟨-, hx⟩ | ⟨-, -, hx⟩ | ⟨-, -, hx⟩
      · rw [hx] at hr
        exact absurd hr id
      · rw [hx] at hr
        exact absurd hr id
      · rw [hx] at hr
        exact absurd hr id
    · rw [(pending_woken (hrun.other hu)).2] at hr
      obtain ⟨hle, hend⟩ := h.result u m bytes hr
      refine ⟨hle, fun hm hb => ?_⟩
      rw [(hend hm hb).2] at hopen
      cases hopen

/-- **`piperead`.** -/
theorem took (h : Queue s g) {n : Nat} (ht : pending (s.status t) = [])
    (hrun : Runs .some t (piperead n t s.shared) s s') : Queue s' (g.took t n s.shared) := by
  have hshared := hrun.shared
  rcases piperead_cases n s.shared t with ⟨-, -, ⟨-, hx⟩ | hx⟩ | ⟨hgo, hx⟩
  · rw [Record.took, hx]
    rw [hx] at hrun
    exact h.quiet hrun rfl id ht.symm fun _ _ => id
  · rw [Record.took, hx]
    rw [hx] at hrun
    exact h.quiet hrun rfl id ht.symm fun _ _ => id
  · rw [Record.took, hx]
    rw [hx] at hrun hshared
    obtain ⟨hcontents, hfits, hlength⟩ := Pipe.copyOut_spec n s.shared.pipe h.fits
    have hopen : s'.shared.pipe.writeopen = s.shared.pipe.writeopen := by
      rw [hshared]
      exact congrFun (Pipe.copyOut_isOpen n s.shared.pipe) true
    have hpipe : s'.shared.pipe = (s.shared.pipe.copyOut n).1 := by rw [hshared]
    refine ⟨by rw [hpipe]; exact hfits, ?_, fun u => ?_, fun u m bytes hr => ?_⟩
    · show g.sent.map Prod.snd = g.recvd ++ (s.shared.pipe.copyOut n).2 ++ _
      rw [h.fifo, hpipe, hcontents, List.append_assoc]
    · show g.sentBy u ++ _ = g.given u
      rw [← h.order u]
      by_cases hu : u = t
      · rw [hu, hrun.self, ht]
        rfl
      · rw [(pending_woken (hrun.other hu)).1]
    · by_cases hu : u = t
      · rw [hu, hrun.self] at hr
        obtain ⟨rfl, rfl⟩ : m = n ∧ bytes = (s.shared.pipe.copyOut n).2 := hr
        refine ⟨by rw [hlength]; exact Nat.min_le_left _ _, fun hm hb => ?_⟩
        -- a read that took nothing found the pipe empty
        have hnil : s.shared.pipe.contents = [] := by
          rw [hb, List.length_nil] at hlength
          exact List.length_eq_zero_iff.mp (by omega)
        have hempty := RingBuffer.contents_eq_nil_iff.mp hnil
        have hclosed := hgo.resolve_left (by rw [hempty]; decide)
        rw [hopen, hpipe, Pipe.copyOut_empty hempty]
        exact ⟨hempty, hclosed⟩
      · rw [(pending_woken (hrun.other hu)).2] at hr
        obtain ⟨hle, hend⟩ := h.result u m bytes hr
        refine ⟨hle, fun hm hb => ?_⟩
        obtain ⟨hempty, hclosed⟩ := hend hm hb
        rw [hopen, hpipe, Pipe.copyOut_empty hempty]
        exact ⟨hempty, hclosed⟩

/-- A process at work on nothing has nothing left to write. -/
theorem pending_idle {st : Status Client Channel Wait} (h : ∃ ret, st = .out (.idle ret)) :
    pending st = [] := by
  obtain ⟨ret, rfl⟩ := h
  rfl

variable [Fintype τ]

/-- **The step lemma**, by the move: only a write adds to the queue, and only a read takes from it. -/
theorem step (h : Queue s g) (hends : Ends s) {kills : Bool} {e : Event τ (Call τ)}
    (hm : Move kills s s' e) : Queue s' (Record.after s g e) := by
  cases hm with
  | write t n rest hgo hlen ht hrun =>
    have hopen : s.shared.pipe.writeopen = true :=
      ((hends.life true).isOpen_of_pos (hends.ref_pos ht)).1
    rcases hgo with ⟨rfl, hidle⟩ | ⟨rfl, hw⟩
    · obtain rfl := hlen t _ rfl
      refine h.wrote hopen ?_ (fun u hu => Function.update_of_ne hu _ _) hrun
      rw [Function.update_self, ← h.order t, pending_idle hidle, List.append_nil]
    · show Queue s' (match s.status t with
        | .woken (.write n rest) => g.wrote t n rest s.shared
        | .woken (.read n) => g.took t n s.shared
        | _ => g)
      rw [hw]
      refine h.wrote hopen ?_ (fun _ _ => rfl) hrun
      rw [← h.order t, hw]
      rfl
  | read t n hgo ht hrun =>
    rcases hgo with ⟨rfl, hidle⟩ | ⟨rfl, hw⟩
    · exact h.took (pending_idle hidle) hrun
    · show Queue s' (match s.status t with
        | .woken (.write n rest) => g.wrote t n rest s.shared
        | .woken (.read n) => g.took t n s.shared
        | _ => g)
      rw [hw]
      exact h.took (by rw [hw]; rfl) hrun
  | refuse t f he hf hidle hrun =>
    have hquiet := h.quiet hrun rfl id (pending_idle hidle).symm fun _ _ => id
    rcases hf with ⟨n, rfl⟩ | ⟨bytes, rfl⟩
    · rw [he]
      exact hquiet
    · rw [he]
      exact hquiet
  | dup t u w he hidle ht hrun =>
    have hpos := hends.ref_pos ht
    rw [filedup, if_neg (by omega)] at hrun
    rw [he]
    exact h.quiet hrun rfl id (pending_idle hidle).symm fun _ _ => id
  | close t w he hidle ht hrun =>
    have hpos := hends.ref_pos ht
    rw [fileclose, if_neg (by omega)] at hrun
    rw [he]
    by_cases hmore : 0 < Function.update s.shared.ref w (s.shared.ref w - 1) w
    · simp only [hmore, if_true] at hrun
      exact h.quiet hrun rfl id (pending_idle hidle).symm fun _ _ => id
    · simp only [hmore, if_false] at hrun
      exact h.quiet hrun rfl id (pending_idle hidle).symm fun _ _ => id
  | pipeclose t w he ht hrun =>
    rw [he]
    cases w with
    | true => exact h.quiet hrun rfl (fun _ => rfl) (by rw [ht]; rfl) fun _ _ => id
    | false => exact h.quiet hrun rfl id (by rw [ht]; rfl) fun _ _ => id
  | kill t u he _ hidle hrun =>
    rw [he]
    exact h.quiet hrun rfl id (pending_idle hidle).symm fun _ _ => id
  | stir t he hs hst =>
    rw [he]
    exact h.stirred hs hst

/-- **The run lemma**: in every run the bytes are sent, received or in the buffer, in order. -/
theorem reach {kills : Bool} {t₀ : τ} {x : St τ × Record τ} (h : (recorded kills t₀).Reach x) :
    Ends x.1 ∧ Queue x.1 x.2 := by
  refine h.invariant (I := fun x : St τ × Record τ => Ends x.1 ∧ Queue x.1 x.2) ?_ ?_
  · rintro ⟨s, g⟩ ⟨hs, hg⟩
    obtain rfl : g = ⟨[], [], fun _ => []⟩ := hg
    exact ⟨Ends.initial hs, Queue.initial hs⟩
  · rintro ⟨s, g⟩ e ⟨s', g'⟩ ⟨hends, hqueue⟩ ⟨hok, hstep, hg⟩
    obtain rfl : g' = Record.after s g e := hg
    have hst : (system kills t₀).step s e s' := ⟨hok, hstep⟩
    have hm := step_cases hends.uses hst
    exact ⟨hends.step hm, hqueue.step hends hm⟩

end Queue

/-! ## First in, first out -/

/-- **A pipe loses nothing and keeps the order.**  In every run, with any number of writers and
    readers and also where the counters wrap around: what the calls of `piperead` have returned,
    followed by what is in the pipe, is what was stored, in that order, and it fits the pipe; each
    process has stored what it passed to `pipewrite`, in order, up to what it is still to write and
    what its failed calls did not get to; and a read of more than 0 bytes that returned none found
    the pipe empty and no writer left, after which nothing is ever added. -/
theorem pipe_fifo [Fintype τ] {kills : Bool} {t₀ : τ} {x : St τ × Record τ}
    (h : (recorded kills t₀).Reach x) :
    x.2.sent.map Prod.snd = x.2.recvd ++ x.1.shared.pipe.contents ∧
      x.1.shared.pipe.contents.length ≤ PIPESIZE ∧
      (∀ t, x.2.sentBy t ++ pending (x.1.status t) = x.2.given t) ∧
      ∀ t n bytes, x.1.status t = .out (.idle (.read n bytes)) → bytes.length ≤ n ∧
        (0 < n → bytes = [] → x.2.recvd = x.2.sent.map Prod.snd ∧ ∀ u, x.1.shared.fds true u = 0) := by
  obtain ⟨hends, hqueue⟩ := Queue.reach h
  refine ⟨hqueue.fifo, ?_, hqueue.order, fun t n bytes ht => ?_⟩
  · rw [RingBuffer.length_contents]
    exact hqueue.fits
  · obtain ⟨hle, hend⟩ := hqueue.result t n bytes (by rw [ht]; exact ⟨rfl, rfl⟩)
    refine ⟨hle, fun hn hb => ?_⟩
    obtain ⟨hempty, hclosed⟩ := hend hn hb
    constructor
    · rw [hqueue.fifo, RingBuffer.contents_eq_nil_iff.mpr hempty, List.append_nil]
    · intro u
      by_contra hu
      have hopen := (hends.isOpen_iff true).mpr (.inl ⟨u, Nat.pos_of_ne_zero hu⟩)
      have hclosed : x.1.shared.pipe.isOpen true = false := hclosed
      rw [hclosed] at hopen
      cases hopen

/-! ## Sleepers -/

/-- A process sleeps on the address that its call sleeps on. -/
def atChannel : Status Client Channel Wait → Prop
  | .blocked c (.write _ _) => c = .nwrite
  | .blocked c (.read _) => c = .nread
  | _ => True

/-- **Why a process sleeps.**  Where nobody is killed, readers have a reason as well. -/
structure Sleeps (kills : Bool) (s : St τ) : Prop where
  placed : ∀ t, atChannel (s.status t)
  alive : kills = false → ∀ t, s.shared.killed t = false
  writers : ∀ t p, s.status t = .blocked .nwrite p →
    s.shared.pipe.isFull = true ∧ s.shared.pipe.readopen = true
  readers : kills = false → ∀ t p, s.status t = .blocked .nread p →
    s.shared.pipe.isEmpty = true ∧ s.shared.pipe.writeopen = true

omit [DecidableEq τ] in
theorem placed_stirred {st st' : τ → Status Client Channel Wait} (h : Stirred st st')
    (hp : ∀ t, atChannel (st t)) (t : τ) : atChannel (st' t) := by
  rcases h t with heq | ⟨c, p, -, hw⟩
  · rw [heq]
    exact hp t
  · rw [hw]
    trivial

namespace Sleeps

variable {kills : Bool} {s s' : St τ} {t : τ}

omit [DecidableEq τ] in
theorem inside_writer (h : Sleeps kills s) {p : Wait} (ht : s.status t = .blocked .nwrite p) :
    inside (s.status t) true := by
  have hp := h.placed t
  rw [ht] at hp ⊢
  cases p with
  | write n rest => rfl
  | read n => cases hp

omit [DecidableEq τ] in
theorem inside_reader (h : Sleeps kills s) {p : Wait} (ht : s.status t = .blocked .nread p) :
    inside (s.status t) false := by
  have hp := h.placed t
  rw [ht] at hp ⊢
  cases p with
  | write n rest => cases hp
  | read n => rfl

theorem initial {t₀ : τ} (h : made t₀ s) : Sleeps kills s := by
  obtain ⟨⟨data, hs⟩, hout⟩ := h
  refine ⟨fun t => by rw [hout t]; trivial, fun _ t => by rw [hs]; rfl, fun t p ht => ?_,
    fun _ t p ht => ?_⟩
  · rw [hout t] at ht
    cases ht
  · rw [hout t] at ht
    cases ht

omit [DecidableEq τ] in
theorem stirred (h : Sleeps kills s) (hs : s'.shared = s.shared)
    (hst : Stirred s.status s'.status) : Sleeps kills s' := by
  obtain ⟨hplaced, halive, hwriters, hreaders⟩ := h
  rw [← hs] at halive hwriters hreaders
  exact ⟨placed_stirred hst hplaced, halive, fun t p ht => hwriters t p (hst.blocked ht),
    fun hk t p ht => hreaders hk t p (hst.blocked ht)⟩

/-- **One stretch**: what is to be shown of those that slept before and still do, and of the process
    itself if it goes to sleep. -/
theorem run (h : Sleeps kills s) {x : Body τ} (hrun : Runs .some t x s s')
    (hplaced : atChannel x.next.status) (halive : kills = false → ∀ u, x.shared.killed u = false)
    (hself : ∀ p, x.next.status = .blocked .nwrite p →
      x.shared.pipe.isFull = true ∧ x.shared.pipe.readopen = true)
    (hself' : ∀ p, x.next.status = .blocked .nread p →
      x.shared.pipe.isEmpty = true ∧ x.shared.pipe.writeopen = true)
    (hwriters : .broadcast .nwrite ∉ x.notify → ∀ u p, s.status u = .blocked .nwrite p →
      x.shared.pipe.isFull = true ∧ x.shared.pipe.readopen = true)
    (hreaders : kills = false → .broadcast .nread ∉ x.notify → ∀ u p,
      s.status u = .blocked .nread p →
        x.shared.pipe.isEmpty = true ∧ x.shared.pipe.writeopen = true) : Sleeps kills s' := by
  have hshared := hrun.shared
  refine ⟨fun u => ?_, by rw [hshared]; exact halive, fun u p hu => ?_, fun hk u p hu => ?_⟩
  · by_cases hut : u = t
    · rw [hut, hrun.self]
      exact hplaced
    · rcases hrun.other hut with heq | ⟨c, p, -, hw⟩
      · rw [heq]
        exact h.placed u
      · rw [hw]
        trivial
  · rw [hshared]
    by_cases hut : u = t
    · rw [hut, hrun.self] at hu
      exact hself p hu
    · exact hwriters (fun hb => hrun.broadcast hb hut hu) u p (hrun.blocked hut hu)
  · rw [hshared]
    by_cases hut : u = t
    · rw [hut, hrun.self] at hu
      exact hself' p hu
    · exact hreaders hk (fun hb => hrun.broadcast hb hut hu) u p (hrun.blocked hut hu)

/-- A stretch that leaves the pipe alone. -/
theorem quiet (h : Sleeps kills s) {x : Body τ} (hrun : Runs .some t x s s')
    (hnext : ∃ a, x.next = .leave a) (halive : kills = false → x.shared.killed = s.shared.killed)
    (hpipe : x.shared.pipe = s.shared.pipe) : Sleeps kills s' := by
  obtain ⟨a, ha⟩ := hnext
  have hout : x.next.status = .out a := by rw [ha]; rfl
  refine h.run hrun (by rw [hout]; trivial) (fun hk => by rw [halive hk]; exact h.alive hk)
    (fun p hp => ?_) (fun p hp => ?_) (fun _ u p hu => by rw [hpipe]; exact h.writers u p hu)
    fun hk _ u p hu => by rw [hpipe]; exact h.readers hk u p hu
  · rw [hout] at hp
    cases hp
  · rw [hout] at hp
    cases hp

variable [Fintype τ]

theorem pipewrite (h : Sleeps kills s) (hends : Ends s) {n : Nat} {rest : List UInt8}
    (hrun : Runs .some t (pipewrite n rest t s.shared) s s') : Sleeps kills s' := by
  -- who sleeps at a full pipe still does: nothing was stored
  have hfull : ∀ u p, s.status u = .blocked .nwrite p →
      (s.shared.pipe.copyIn rest).1.isFull = true ∧
        (s.shared.pipe.copyIn rest).1.readopen = true := by
    intro u p hu
    have hsleep := h.writers u p hu
    rw [Pipe.copyIn_full hsleep.1]
    exact hsleep
  rcases pipewrite_cases n rest s.shared t with ⟨-, hx⟩ | ⟨-, hstop, hx⟩ | ⟨hleft, ⟨hopen, -⟩, hx⟩
  · rw [hx] at hrun
    exact h.run hrun trivial h.alive (fun p hp => by cases hp) (fun p hp => by cases hp)
      (fun _ => hfull) fun _ hno => absurd (List.mem_singleton.mpr rfl) hno
  · rw [hx] at hrun
    refine h.run hrun trivial h.alive (fun p hp => by cases hp) (fun p hp => by cases hp)
      (fun _ => hfull) fun hk _ u p hu => ?_
    -- the other end is closed, so nobody reads
    have hclosed := hstop.resolve_right (by rw [h.alive hk t]; decide)
    have hopen : s.shared.pipe.readopen = true := hends.isOpen_of_inside (h.inside_reader hu)
    rw [hclosed] at hopen
    cases hopen
  · rw [hx] at hrun
    have hread : (s.shared.pipe.copyIn rest).1.readopen = true :=
      (congrFun (Pipe.copyIn_isOpen rest s.shared.pipe) false).trans hopen
    exact h.run hrun rfl h.alive (fun _ _ => ⟨Pipe.copyIn_stop rest _ hleft, hread⟩)
      (fun p hp => by cases hp) (fun _ => hfull)
      fun _ hno => absurd (List.mem_singleton.mpr rfl) hno

omit [Fintype τ] in
theorem piperead (h : Sleeps kills s) {n : Nat}
    (hrun : Runs .some t (piperead n t s.shared) s s') : Sleeps kills s' := by
  rcases piperead_cases n s.shared t with ⟨hempty, hopen, ⟨-, hx⟩ | hx⟩ | ⟨hgo, hx⟩
  · rw [hx] at hrun
    exact h.quiet hrun ⟨_, rfl⟩ (fun _ => rfl) rfl
  · rw [hx] at hrun
    exact h.run hrun rfl h.alive (fun p hp => by cases hp) (fun _ _ => ⟨hempty, hopen⟩)
      (fun _ => h.writers) fun hk _ => h.readers hk
  · rw [hx] at hrun
    refine h.run hrun trivial h.alive (fun p hp => by cases hp) (fun p hp => by cases hp)
      (fun hno => absurd (List.mem_singleton.mpr rfl) hno) fun hk _ u p hu => ?_
    obtain ⟨hempty, hopen⟩ := h.readers hk u p hu
    rw [hempty, hopen] at hgo
    rcases hgo with hgo | hgo
    · cases hgo
    · cases hgo

theorem pipeclose (h : Sleeps kills s) (hends : Ends s) {w : Bool}
    (ht : s.status t = .out (.closing w)) (hrun : Runs .some t (pipeclose w s.shared) s s') :
    Sleeps kills s' := by
  -- nobody is in a call on an end that is being closed
  have hnone : ∀ u, ¬ inside (s.status u) w := fun u hu =>
    ((hends.life w).isOpen_of_pos (hends.ref_pos (hends.uses u w hu))).2 t (by rw [ht]; rfl)
  cases w with
  | true =>
    exact h.run hrun trivial h.alive (fun p hp => by cases hp) (fun p hp => by cases hp)
      (fun _ u p hu => absurd (h.inside_writer hu) (hnone u))
      fun _ hno => absurd (List.mem_singleton.mpr rfl) hno
  | false =>
    exact h.run hrun trivial h.alive (fun p hp => by cases hp) (fun p hp => by cases hp)
      (fun hno => absurd (List.mem_singleton.mpr rfl) hno)
      fun _ _ u p hu => absurd (h.inside_reader hu) (hnone u)

/-- **The step lemma**, by the move: only `pipewrite` and `piperead` put a thread to sleep. -/
theorem step (h : Sleeps kills s) (hends : Ends s) {e : Event τ (Call τ)}
    (hm : Move kills s s' e) : Sleeps kills s' := by
  cases hm with
  | write t n rest _ _ _ hrun => exact h.pipewrite hends hrun
  | read t n _ _ hrun => exact h.piperead hrun
  | refuse t f _ _ _ hrun => exact h.quiet hrun ⟨_, rfl⟩ (fun _ => rfl) rfl
  | dup t u w _ _ ht hrun =>
    have hpos := hends.ref_pos ht
    rw [filedup, if_neg (by omega)] at hrun
    exact h.quiet hrun ⟨_, rfl⟩ (fun _ => rfl) rfl
  | close t w _ _ ht hrun =>
    have hpos := hends.ref_pos ht
    rw [fileclose, if_neg (by omega)] at hrun
    by_cases hmore : 0 < Function.update s.shared.ref w (s.shared.ref w - 1) w
    · simp only [hmore, if_true] at hrun
      exact h.quiet hrun ⟨_, rfl⟩ (fun _ => rfl) rfl
    · simp only [hmore, if_false] at hrun
      exact h.quiet hrun ⟨_, rfl⟩ (fun _ => rfl) rfl
  | pipeclose t w _ ht hrun => exact h.pipeclose hends ht hrun
  | kill t u _ hk _ hrun =>
    refine h.quiet hrun ⟨_, rfl⟩ (fun hno => ?_) rfl
    rw [hk] at hno
    cases hno
  | stir t _ hs hst => exact h.stirred hs hst

/-- **The run lemma**: wherever the pipe gets to, the ends are right, and `Sleeps` is true of those
    who sleep. -/
theorem reach {t₀ : τ} (h : (system kills t₀).Reach s) : Ends s ∧ Sleeps kills s := by
  refine h.invariant (I := fun s : St τ => Ends s ∧ Sleeps kills s)
    (fun s hs => ⟨Ends.initial hs, initial hs⟩) fun s e s' ⟨hends, hsleeps⟩ hst => ?_
  have hm := step_cases hends.uses hst
  exact ⟨hends.step hm, hsleeps.step hends hm⟩

end Sleeps

/-! ## A reader that nobody wakes -/

section Doomed

variable {kills : Bool} {t₀ t₁ : τ} {s : St τ} {data : Fin PIPESIZE → UInt8}

/-- A call is made. -/
theorem exists_call (h : (system kills t₀).Reach s) {t : τ} {a : Client} (f : Call τ)
    (ht : s.status t = .out a) (hmay : may a f) (hok : holds kills s (.enter t f)) :
    ∃ s', (system kills t₀).Reach s' ∧ Runs .some t ((code τ).enter f t a s.shared) s s' := by
  obtain ⟨s', hrun⟩ := exists_runs .some t ((code τ).enter f t a s.shared) s
  exact ⟨s', .step (e := .enter t f) h ⟨hok, a, ht, hmay, hrun⟩, hrun⟩

/-- The pipe of `t₀` when `t₁` has been given a copy of the writing end, and has been killed. -/
def doomed (t₀ t₁ : τ) (data : Fin PIPESIZE → UInt8) : Shared τ :=
  (kill t₁ (filedup t₁ true (pipealloc t₀ data)).shared).shared

theorem fds_doomed (hne : t₁ ≠ t₀) (w : Bool) (u : τ) :
    (doomed t₀ t₁ data).fds w u = if u = t₀ then 1 else if u = t₁ ∧ w = true then 1 else 0 := by
  have hfds : (doomed t₀ t₁ data).fds = Function.update (pipealloc t₀ data).fds true
      (Function.update ((pipealloc t₀ data).fds true) t₁ ((pipealloc t₀ data).fds true t₁ + 1)) :=
    rfl
  rw [hfds]
  by_cases hu : u = t₀
  · subst hu
    cases w <;> simp [pipealloc, hne.symm]
  · by_cases hu₁ : u = t₁
    · subst hu₁
      cases w <;> simp [pipealloc, hu]
    · cases w <;> simp [pipealloc, hu, hu₁]

theorem killed_doomed (u : τ) : (doomed t₀ t₁ data).killed u = decide (u = t₁) := by
  show Function.update (fun _ => false) t₁ true u = _
  by_cases hu : u = t₁
  · simp [hu]
  · simp [hu]

/-- The writer gets its descriptor and is killed. -/
theorem exists_doomed (t₀ t₁ : τ) (data : Fin PIPESIZE → UInt8) :
    ∃ s, (system true t₀).Reach s ∧ s.shared = doomed t₀ t₁ data ∧
      ∀ u, s.status u = .out (.idle .none) := by
  have h₀ : (system true t₀).Reach ⟨pipealloc t₀ data, fun _ => .out (.idle .none)⟩ :=
    .start ⟨⟨data, rfl⟩, fun _ => rfl⟩
  have hown : (pipealloc t₀ data).fds true t₀ = 1 := by simp [pipealloc]
  obtain ⟨s₁, h₁, hrun₁⟩ := exists_call h₀ (t := t₀) (.filedup t₁ true) rfl ⟨.none, rfl⟩
    ⟨by rw [hown]; exact Nat.one_pos, .none, rfl⟩
  have hidle₁ : ∀ u, s₁.status u = .out (.idle .none) := by
    intro u
    rw [hrun₁.quiet rfl, Function.update_apply]
    exact ite_self _
  obtain ⟨s₂, h₂, hrun₂⟩ := exists_call h₁ (.kill t₁) (hidle₁ t₀) ⟨.none, rfl⟩ rfl
  refine ⟨s₂, h₂, by rw [hrun₂.shared, hrun₁.shared]; rfl, fun u => ?_⟩
  rw [hrun₂.quiet rfl, Function.update_apply, hidle₁]
  exact ite_self _

/-- The reader goes to sleep at the empty pipe. -/
theorem sleeps_doomed (hne : t₁ ≠ t₀) (h : (system true t₀).Reach s)
    (hs : s.shared = doomed t₀ t₁ data) (ht : s.status t₀ = .out (.idle .none)) :
    ∃ s', (system true t₀).Reach s' ∧ s'.shared = doomed t₀ t₁ data ∧
      s'.status = Function.update s.status t₀ (.blocked .nread (.read 1)) := by
  obtain ⟨s', h', hrun⟩ := exists_call h (t := t₀) (.fileread false 1) ht ⟨.none, rfl⟩
    (by show 0 < s.shared.fds false t₀; rw [hs, fds_doomed hne]; simp)
  have hrun : Runs .some t₀ (piperead 1 t₀ s.shared) s s' := hrun
  have hempty : s.shared.pipe.isEmpty = true ∧ s.shared.pipe.writeopen = true := by
    rw [hs]
    exact ⟨rfl, rfl⟩
  have halive : s.shared.killed t₀ = false := by
    rw [hs, killed_doomed]
    exact decide_eq_false hne.symm
  rw [piperead, if_pos hempty, if_neg (by rw [halive]; decide)] at hrun
  exact ⟨s', h', hrun.shared.trans hs, hrun.quiet rfl⟩

/-- The killed writer fills the pipe and gives up, waking nobody. -/
theorem fills_doomed (hne : t₁ ≠ t₀) (h : (system true t₀).Reach s)
    (hs : s.shared = doomed t₀ t₁ data) (ht : s.status t₁ = .out (.idle .none)) :
    ∃ s' p, (system true t₀).Reach s' ∧ p.isFull = true ∧
      s'.shared = { doomed t₀ t₁ data with pipe := p } ∧
      s'.status = Function.update s.status t₁ (.out (.idle .failed)) := by
  obtain ⟨s', h', hrun⟩ := exists_call h (.filewrite true (List.replicate (PIPESIZE + 1) 0)) ht
    ⟨.none, rfl⟩ (by show 0 < s.shared.fds true t₁; rw [hs, fds_doomed hne]; simp [hne])
  generalize hbytes : List.replicate (PIPESIZE + 1) (0 : UInt8) = bytes at hrun
  have hrun : Runs .some t₁ (pipewrite bytes.length bytes t₁ s.shared) s s' := hrun
  have hleft : (s.shared.pipe.copyIn bytes).2 ≠ [] := by
    have hempty : s.shared.pipe.isEmpty = true := by rw [hs]; rfl
    have hfits : s.shared.pipe.Fits := by
      rw [RingBuffer.Fits, RingBuffer.isEmpty_iff.mp hempty]
      exact Nat.zero_le _
    obtain ⟨stored, hstored, hcontents, hfits'⟩ := Pipe.copyIn_spec bytes _ hfits
    intro hleft
    rw [hleft, List.append_nil] at hstored
    rw [RingBuffer.contents_eq_nil_iff.mpr hempty, ← hstored, List.nil_append] at hcontents
    rw [RingBuffer.Fits, ← RingBuffer.length_contents, hcontents, ← hbytes,
      List.length_replicate] at hfits'
    omega
  have hkilled : s.shared.killed t₁ = true := by
    rw [hs, killed_doomed]
    exact decide_eq_true rfl
  rcases pipewrite_cases bytes.length bytes s.shared t₁ with
    ⟨hdone, -⟩ | ⟨-, -, hx⟩ | ⟨-, ⟨-, halive⟩, -⟩
  · exact absurd hdone hleft
  · rw [hx] at hrun
    refine ⟨s', (s.shared.pipe.copyIn bytes).1, h', Pipe.copyIn_stop bytes _ hleft, ?_,
      hrun.quiet rfl⟩
    rw [hrun.shared, hs]
  · rw [hkilled] at halive
    cases halive

/-- The writer exits, which closes its descriptor. -/
theorem exits_doomed (hne : t₁ ≠ t₀) {p : Pipe} (h : (system true t₀).Reach s)
    (hs : s.shared = { doomed t₀ t₁ data with pipe := p })
    (ht : s.status t₁ = .out (.idle .failed)) :
    ∃ s', (system true t₀).Reach s' ∧ s'.shared.pipe = p ∧
      (∀ w u, u ≠ t₀ → s'.shared.fds w u = 0) ∧
      s'.status = Function.update s.status t₁ (.out (.idle .none)) := by
  have hfds : s.shared.fds = (doomed t₀ t₁ data).fds := by rw [hs]
  obtain ⟨s', h', hrun⟩ := exists_call h (t := t₁) (.fileclose true) ht ⟨.failed, rfl⟩
    (by show 0 < s.shared.fds true t₁; rw [hfds, fds_doomed hne]; simp [hne])
  have hrun : Runs .some t₁ (fileclose true t₁ s.shared) s s' := hrun
  have href : s.shared.ref true = 2 := by rw [hs]; rfl
  have hone : 0 < Function.update s.shared.ref true (s.shared.ref true - 1) true := by
    rw [Function.update_self, href]
    decide
  rw [fileclose, if_neg (by omega)] at hrun
  simp only [hone, if_true] at hrun
  refine ⟨s', h', by rw [hrun.shared, hs], fun w u hu => ?_, hrun.quiet rfl⟩
  have hfds' : s'.shared.fds = Function.update s.shared.fds true
      (Function.update (s.shared.fds true) t₁ (s.shared.fds true t₁ - 1)) := by
    rw [hrun.shared]
  rw [hfds', hfds]
  cases w with
  | true =>
    rw [Function.update_self]
    by_cases hu₁ : u = t₁
    · rw [hu₁, Function.update_self, fds_doomed hne, if_neg hne, if_pos ⟨rfl, rfl⟩]
    · rw [Function.update_of_ne hu₁, fds_doomed hne, if_neg hu, if_neg fun hc => hu₁ hc.1]
  | false =>
    rw [Function.update_of_ne (by decide), fds_doomed hne, if_neg hu, if_neg fun hc => by cases hc.2]

/-- **A wakeup that is lost.**  `t₁` has a copy of the writing end and is killed inside its call of
    `pipewrite`, before it locks the pipe; `t₀` goes to sleep in `piperead`.  The write of more bytes
    than there is room for fills the pipe, sees the flag and returns without waking anyone, and `t₁`
    exits.  Now `t₀` sleeps at a full pipe that no other process knows. -/
theorem stalls (hne : t₁ ≠ t₀) (data : Fin PIPESIZE → UInt8) :
    ∃ s, (system true t₀).Reach s ∧ s.status t₀ = .blocked .nread (.read 1) ∧
      s.shared.pipe.isFull = true ∧ ∀ u, u ≠ t₀ → away s u := by
  obtain ⟨s₂, h₂, hs₂, hidle⟩ := exists_doomed t₀ t₁ data
  obtain ⟨s₃, h₃, hs₃, hstatus₃⟩ := sleeps_doomed hne h₂ hs₂ (hidle t₀)
  have ht₃ : s₃.status t₁ = .out (.idle .none) := by
    rw [hstatus₃, Function.update_of_ne hne, hidle]
  obtain ⟨s₄, p, h₄, hfull, hs₄, hstatus₄⟩ := fills_doomed hne h₃ hs₃ ht₃
  have ht₄ : s₄.status t₁ = .out (.idle .failed) := by rw [hstatus₄, Function.update_self]
  obtain ⟨s₅, h₅, hpipe, hfds, hstatus₅⟩ := exits_doomed hne h₄ hs₄ ht₄
  have hstatus : ∀ u, u ≠ t₁ → s₅.status u = s₃.status u := by
    intro u hu
    rw [hstatus₅, Function.update_of_ne hu, hstatus₄, Function.update_of_ne hu]
  refine ⟨s₅, h₅, ?_, hpipe ▸ hfull, fun u hu => ⟨?_, fun w => hfds w u hu⟩⟩
  · rw [hstatus t₀ hne.symm, hstatus₃, Function.update_self]
  · by_cases hu₁ : u = t₁
    · rw [hu₁, hstatus₅, Function.update_self]
      exact ⟨_, rfl⟩
    · rw [hstatus u hu₁, hstatus₃, Function.update_of_ne hu, hidle]
      exact ⟨_, rfl⟩

end Doomed

section Stall

variable [Fintype τ] {kills : Bool} {t₀ t₁ : τ}

theorem pipe_freed_once_stalled : ∃ s : St Bool, s.status true = .blocked .nread (.read 1) ∧
    s.shared.panicked = false ∧ s.shared.freed ≤ 1 ∧
      (s.shared.freed = 1 ↔ ∀ t, away s t) := by
  obtain ⟨s, h, hs, -⟩ := stalls (show false ≠ true by decide) fun _ => 0
  exact ⟨s, hs, pipe_freed_once h⟩

theorem pipe_fifo_stalled : ∃ x : St Bool × Record Bool,
    x.1.status true = .blocked .nread (.read 1) ∧
      x.2.sent.map Prod.snd = x.2.recvd ++ x.1.shared.pipe.contents ∧
      x.1.shared.pipe.contents.length ≤ PIPESIZE ∧
      (∀ t, x.2.sentBy t ++ pending (x.1.status t) = x.2.given t) ∧
      ∀ t n bytes, x.1.status t = .out (.idle (.read n bytes)) → bytes.length ≤ n ∧
        (0 < n → bytes = [] →
          x.2.recvd = x.2.sent.map Prod.snd ∧ ∀ u, x.1.shared.fds true u = 0) := by
  obtain ⟨s, h, hs, -⟩ := stalls (show false ≠ true by decide) fun _ => 0
  obtain ⟨g, hg⟩ := h.exists_ghost ⟨[], [], fun _ => []⟩ Record.after
  exact ⟨(s, g), hs, pipe_fifo hg⟩

/-- **Nobody sleeps without a reason**, which is exactly right where nobody is killed.  A process
    that sleeps in `pipewrite` does so at a full pipe with its other end open.  That those in
    `piperead` sleep at an empty pipe with its other end open holds in every run if and only if
    `kill` is not called; with it a reader can be left asleep at a full pipe for good. -/
theorem pipe_sleepers_iff (hne : t₁ ≠ t₀) :
    (∀ s, (system kills t₀).Reach s → ∀ t p, s.status t = .blocked .nwrite p →
      s.shared.pipe.isFull = true ∧ s.shared.pipe.readopen = true) ∧
    ((∀ s, (system kills t₀).Reach s → ∀ t p, s.status t = .blocked .nread p →
      s.shared.pipe.isEmpty = true ∧ s.shared.pipe.writeopen = true) ↔ kills = false) ∧
    (kills = true → ∃ s, (system kills t₀).Reach s ∧ s.status t₀ = .blocked .nread (.read 1) ∧
      s.shared.pipe.isFull = true ∧ ∀ u, u ≠ t₀ → away s u) := by
  refine ⟨fun s h => (Sleeps.reach h).2.writers, ⟨fun hall => ?_, fun hk s h => ?_⟩, fun hk => ?_⟩
  · by_contra hk
    obtain rfl : kills = true := Bool.eq_true_of_not_eq_false hk
    obtain ⟨s, h, hs, hfull, -⟩ := stalls hne fun _ => 0
    have hempty := (hall s h t₀ _ hs).1
    have hsize := (RingBuffer.isFull_iff (by decide)).mp hfull
    rw [RingBuffer.isEmpty_iff.mp hempty] at hsize
    cases hsize
  · exact (Sleeps.reach h).2.readers hk
  · subst hk
    exact stalls hne fun _ => 0

theorem pipe_sleepers_iff_two : ∃ s : St Bool, (system true true).Reach s ∧
    s.status true = .blocked .nread (.read 1) ∧ s.shared.pipe.isFull = true ∧
      ∀ u, u ≠ true → away s u :=
  (pipe_sleepers_iff (show false ≠ true by decide)).2.2 rfl

end Stall

end OsCodes.Pipes
