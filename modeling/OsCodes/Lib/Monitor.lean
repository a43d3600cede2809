/-
  Threads that share data under one mutex and wait on its condition variables.

  A stretch that a thread runs with the mutex held, from the lock or from the return of a wait to
  the next wait or the unlock, is one step.  A `Code` says what the stretches do; its `Step` lets
  any thread run its next one, and lets any waiting thread be woken for no reason.  What the
  notifications of a stretch do to the waiting threads is `Notified`; how many threads a signal
  wakes is the parameter `Wakes`.

  A proof about a monitor looks at the stretches only: `Runs` says what a step does to the thread
  that runs (`Runs.self`) and to the others (`Runs.other`, `Runs.signal`, `Runs.broadcast`), and a
  thread that is woken changes nothing that `count` counts on both sides of a wait.

  The number of threads is any, and so is what the mutex protects.  What the module asks of a
  monitor is that shared data are touched under the mutex only; then the stretches are atomic and
  the order in which the threads get the mutex is all that a run leaves open.  Waking up for no
  reason is allowed, as in POSIX, so a law proved here is one of programs that test their
  condition again behind a wait.  For invariants that count threads ("the counter is the number of
  threads inside") there is `count`: a step changes it for the running thread only, where waits
  are counted on both sides.
-/
import OsCodes.Lib.Lts
import Mathlib.Logic.Function.Basic
import Mathlib.Data.Fintype.Card

namespace OsCodes.Monitor

/-! ## Threads and stretches -/

/-- Where a thread is: in the client's code at `a`, in a wait on `c` that goes on at `p`, or
    notified there and waiting for the mutex only. -/
inductive Status (α κ ρ : Type)
  | out (a : α)
  | blocked (c : κ) (p : ρ)
  | woken (p : ρ)
  deriving DecidableEq

/-- A notification: a signal lets some waiters of a channel go, a broadcast all of them. -/
inductive Notify (κ : Type)
  | signal (c : κ)
  | broadcast (c : κ)

/-- The channel of a notification. -/
def Notify.channel {κ : Type} : Notify κ → κ
  | .signal c | .broadcast c => c

/-- How a stretch ends: the thread leaves the monitor, or waits on a channel. -/
inductive Next (α κ ρ : Type)
  | leave (a : α)
  | wait (c : κ) (p : ρ)

/-- Where a stretch leaves its thread. -/
def Next.status {α κ ρ : Type} : Next α κ ρ → Status α κ ρ
  | .leave a => .out a
  | .wait c p => .blocked c p

/-- A thread is blocked where its stretch ended in a wait. -/
theorem Next.eq_wait {α κ ρ : Type} {n : Next α κ ρ} {c : κ} {p : ρ}
    (h : n.status = .blocked c p) : n = .wait c p := by
  cases n with
  | leave a => cases h
  | wait d q =>
    cases h
    rfl

/-- What a stretch does: the shared data behind it, whom it notifies, and how it ends. -/
structure Stretch (σ α κ ρ : Type) where
  shared : σ
  notify : List (Notify κ)
  next : Next α κ ρ

/-- The code that runs under the mutex, and the calls `may` that the client's code makes.  A call
    `f` from `a` starts with `enter f t a`, and `resume p` is what follows a wait. -/
structure Code (σ τ α κ ρ φ : Type) where
  may : τ → α → φ → Prop
  enter : φ → τ → α → σ → Stretch σ α κ ρ
  resume : ρ → τ → σ → Stretch σ α κ ρ

/-- The shared data and where each thread is.  Who holds the mutex is no part of a state, since a
    stretch is one step. -/
structure State (σ τ α κ ρ : Type) where
  shared : σ
  status : τ → Status α κ ρ

/-- A thread starts a call, goes on behind a wait from which it was woken, or is woken for no
    reason. -/
inductive Event (τ φ : Type)
  | enter (t : τ) (f : φ)
  | resume (t : τ)
  | spurious (t : τ)

/-- How many waiting threads a signal wakes, if there is one. -/
inductive Wakes
  | some
  | one

variable {σ τ α κ ρ φ : Type}

/-! ## Notifications -/

/-- `st'` is `st` with some waiting threads woken. -/
def Stirred (st st' : τ → Status α κ ρ) : Prop :=
  ∀ t, st' t = st t ∨ ∃ c p, st t = .blocked c p ∧ st' t = .woken p

theorem Stirred.refl (st : τ → Status α κ ρ) : Stirred st st := fun _ => .inl rfl

theorem Stirred.trans {st st₁ st₂ : τ → Status α κ ρ} (h : Stirred st st₁) (h' : Stirred st₁ st₂) :
    Stirred st st₂ := by
  intro t
  rcases h t with heq | ⟨c, p, hb, hw⟩
  · rw [← heq]
    exact h' t
  · rcases h' t with heq' | ⟨c', p', hb', -⟩
    · exact .inr ⟨c, p, hb, by rw [heq', hw]⟩
    · rw [hw] at hb'
      cases hb'

theorem Stirred.woken {st st' : τ → Status α κ ρ} (h : Stirred st st') {t : τ} {p : ρ}
    (ht : st t = .woken p) : st' t = .woken p := by
  rcases h t with heq | ⟨c, p, hb, -⟩
  · rw [heq, ht]
  · rw [ht] at hb
    cases hb

/-- A thread that is still blocked was so before. -/
theorem Stirred.blocked {st st' : τ → Status α κ ρ} (h : Stirred st st') {t : τ} {c : κ} {p : ρ}
    (ht : st' t = .blocked c p) : st t = .blocked c p := by
  rcases h t with heq | ⟨c, p, -, hw⟩
  · rw [← heq, ht]
  · rw [ht] at hw
    cases hw

/-- Waking a thread for no reason stirs. -/
theorem stirred_spurious [DecidableEq τ] {st : τ → Status α κ ρ} {t : τ} {c : κ} {p : ρ}
    (h : st t = .blocked c p) : Stirred st (Function.update st t (.woken p)) := by
  intro u
  by_cases hu : u = t
  · rw [hu, Function.update_self]
    exact .inr ⟨c, p, h, rfl⟩
  · exact .inl (Function.update_of_ne hu _ _)

section Notifications

variable [DecidableEq κ]

/-- The threads of `S` that wait on `c` are woken. -/
def wake (st : τ → Status α κ ρ) (c : κ) (S : τ → Bool) : τ → Status α κ ρ := fun t =>
  match st t with
  | .blocked c' p => if c' = c ∧ S t = true then .woken p else .blocked c' p
  | x => x

/-- Some thread waits on `c`. -/
def Waiting (st : τ → Status α κ ρ) (c : κ) : Prop := ∃ t p, st t = .blocked c p

/-- A signal on `c` may wake `S`. -/
def Wakes.Picks (w : Wakes) (st : τ → Status α κ ρ) (c : κ) (S : τ → Bool) : Prop :=
  Waiting st c → ∃ t p, st t = .blocked c p ∧ S t = true ∧ (w = .one → ∀ u, S u = true → u = t)

/-- What one notification makes of the threads. -/
def Notify.Effect (w : Wakes) (st st' : τ → Status α κ ρ) : Notify κ → Prop
  | .signal c => ∃ S, w.Picks st c S ∧ st' = wake st c S
  | .broadcast c => st' = wake st c fun _ => true

/-- What the notifications of a stretch make of the threads. -/
def Notified (w : Wakes) : List (Notify κ) → (τ → Status α κ ρ) → (τ → Status α κ ρ) → Prop
  | [], st, st' => st' = st
  | n :: ns, st, st' => ∃ st₁, n.Effect w st st₁ ∧ Notified w ns st₁ st'

theorem wake_blocked {st : τ → Status α κ ρ} {c : κ} {S : τ → Bool} {t : τ} {p : ρ}
    (h : st t = .blocked c p) : wake st c S t = if S t = true then .woken p else .blocked c p := by
  simp only [wake, h, true_and]

theorem stirred_wake (st : τ → Status α κ ρ) (c : κ) (S : τ → Bool) : Stirred st (wake st c S) := by
  intro t
  cases ht : st t with
  | out a => exact .inl (by simp only [wake, ht])
  | woken p => exact .inl (by simp only [wake, ht])
  | blocked c' p =>
    by_cases hc : c' = c ∧ S t = true
    · exact .inr ⟨c', p, rfl, by simp only [wake, ht, if_pos hc]⟩
    · exact .inl (by simp only [wake, ht, if_neg hc])

theorem Notify.Effect.stirred {w : Wakes} {n : Notify κ} {st st' : τ → Status α κ ρ}
    (h : n.Effect w st st') : Stirred st st' := by
  cases n with
  | signal c =>
    obtain ⟨S, -, rfl⟩ := h
    exact stirred_wake st c S
  | broadcast c =>
    have heq : st' = wake st c fun _ => true := h
    rw [heq]
    exact stirred_wake st c _

theorem Notified.stirred {w : Wakes} : ∀ {ns : List (Notify κ)} {st st' : τ → Status α κ ρ},
    Notified w ns st st' → Stirred st st' := by
  intro ns
  induction ns with
  | nil =>
    intro st st' h
    have heq : st' = st := h
    rw [heq]
    exact Stirred.refl st
  | cons n ns ih =>
    rintro st st' ⟨st₁, hn, hns⟩
    exact hn.stirred.trans (ih hns)

/-- **A broadcast** leaves no thread blocked. -/
theorem Notified.broadcast {w : Wakes} {c : κ} : ∀ {ns : List (Notify κ)}
    {st st' : τ → Status α κ ρ}, Notified w ns st st' → .broadcast c ∈ ns → ¬ Waiting st' c := by
  intro ns
  induction ns with
  | nil => exact fun _ hc => absurd hc List.not_mem_nil
  | cons n ns ih =>
    rintro st st' ⟨st₁, hn, hns⟩ hc
    rcases List.mem_cons.mp hc with rfl | hc
    · rintro ⟨t, p, ht⟩
      have ht₁ := hns.stirred.blocked ht
      have hst := hn.stirred.blocked ht₁
      have hall : st₁ = wake st c fun _ => true := hn
      rw [hall, wake_blocked hst] at ht₁
      cases ht₁
    · exact ih hns hc

/-- **A signal** wakes one of the threads that wait, if there are any. -/
theorem Notified.signal {w : Wakes} {c : κ} : ∀ {ns : List (Notify κ)}
    {st st' : τ → Status α κ ρ}, Notified w ns st st' → .signal c ∈ ns → Waiting st' c →
      ∃ t p, st t = .blocked c p ∧ st' t = .woken p := by
  intro ns
  induction ns with
  | nil => exact fun _ hc => absurd hc List.not_mem_nil
  | cons n ns ih =>
    rintro st st' ⟨st₁, hn, hns⟩ hc ⟨u, q, hu⟩
    rcases List.mem_cons.mp hc with rfl | hc
    · obtain ⟨S, hS, rfl⟩ := hn
      obtain ⟨t, p, ht, hin, -⟩ :=
        hS ⟨u, q, (stirred_wake st c S).blocked (hns.stirred.blocked hu)⟩
      refine ⟨t, p, ht, hns.stirred.woken ?_⟩
      rw [wake_blocked ht, if_pos hin]
    · obtain ⟨t, p, ht, hw⟩ := ih hns hc ⟨u, q, hu⟩
      exact ⟨t, p, hn.stirred.blocked ht, hw⟩

/-- A notification leaves those alone that wait elsewhere. -/
theorem Notify.Effect.apart {w : Wakes} {n : Notify κ} {st st' : τ → Status α κ ρ}
    (h : n.Effect w st st') {t : τ} {c : κ} {p : ρ} (hc : n.channel ≠ c)
    (ht : st t = .blocked c p) : st' t = .blocked c p := by
  have hwake : ∀ d S, d ≠ c → wake st d S t = .blocked c p := by
    intro d S hd
    simp only [wake, ht]
    rw [if_neg fun hcd => hd hcd.1.symm]
  cases n with
  | signal d =>
    obtain ⟨S, -, rfl⟩ := h
    exact hwake d S hc
  | broadcast d =>
    have heq : st' = wake st d fun _ => true := h
    rw [heq]
    exact hwake d _ hc

/-- A thread is woken by a notification of the channel that it waits on. -/
theorem Notified.apart {w : Wakes} {c : κ} : ∀ {ns : List (Notify κ)}
    {st st' : τ → Status α κ ρ}, Notified w ns st st' → c ∉ ns.map Notify.channel →
      ∀ {t : τ} {p : ρ}, st t = .blocked c p → st' t = .blocked c p := by
  intro ns
  induction ns with
  | nil =>
    intro st st' h _ t p ht
    have heq : st' = st := h
    rw [heq, ht]
  | cons n ns ih =>
    rintro st st' ⟨st₁, hn, hns⟩ hc t p ht
    rw [List.map_cons, List.mem_cons, not_or] at hc
    exact ih hns hc.2 (hn.apart (fun h => hc.1 h.symm) ht)

/-- A notification always has an effect. -/
theorem Notify.exists_effect [DecidableEq τ] (w : Wakes) (st : τ → Status α κ ρ) (n : Notify κ) :
    ∃ st', n.Effect w st st' := by
  cases n with
  | broadcast c => exact ⟨_, rfl⟩
  | signal c =>
    by_cases hw : Waiting st c
    · obtain ⟨t, p, ht⟩ := hw
      refine ⟨_, fun u => decide (u = t), fun _ => ⟨t, p, ht, decide_eq_true rfl, ?_⟩, rfl⟩
      exact fun _ u hu => of_decide_eq_true hu
    · exact ⟨_, fun _ => false, fun hc => absurd hc hw, rfl⟩

theorem exists_notified [DecidableEq τ] (w : Wakes) (ns : List (Notify κ)) :
    ∀ st : τ → Status α κ ρ, ∃ st', Notified w ns st st' := by
  induction ns with
  | nil => exact fun st => ⟨st, rfl⟩
  | cons n ns ih =>
    intro st
    obtain ⟨st₁, h₁⟩ := n.exists_effect w st
    obtain ⟨st', h'⟩ := ih st₁
    exact ⟨st', st₁, h₁, h'⟩

/-- What signals that wake one thread may do, signals may do. -/
theorem Notified.some {ns : List (Notify κ)} : ∀ {st st' : τ → Status α κ ρ},
    Notified .one ns st st' → Notified .some ns st st' := by
  induction ns with
  | nil => exact fun h => h
  | cons n ns ih =>
    rintro st st' ⟨st₁, hn, hns⟩
    refine ⟨st₁, ?_, ih hns⟩
    cases n with
    | signal c =>
      obtain ⟨S, hS, rfl⟩ := hn
      refine ⟨S, fun hw => ?_, rfl⟩
      obtain ⟨t, p, ht, hin, -⟩ := hS hw
      exact ⟨t, p, ht, hin, nofun⟩
    | broadcast c => exact hn

/-- A signal that finds nobody changes nothing. -/
theorem notified_nobody {w : Wakes} {st : τ → Status α κ ρ} {c : κ} (h : ¬ Waiting st c) :
    Notified w [.signal c] st st := by
  have hsame : st = wake st c fun _ => false := by
    funext u
    cases hu : st u with
    | out a => simp only [wake, hu]
    | woken p => simp only [wake, hu]
    | blocked d p => simp only [wake, hu, Bool.false_eq_true, and_false, if_false]
  exact ⟨_, ⟨fun _ => false, fun hw => absurd hw h, hsame⟩, rfl⟩

/-- A signal may wake any one thread that waits. -/
theorem notified_signal [DecidableEq τ] {w : Wakes} {st : τ → Status α κ ρ} {c : κ} {t : τ} {p : ρ}
    (h : st t = .blocked c p) : Notified w [.signal c] st (Function.update st t (.woken p)) := by
  have hsame : Function.update st t (.woken p) = wake st c fun u => decide (u = t) := by
    funext u
    by_cases hu : u = t
    · rw [hu, Function.update_self, wake_blocked h, if_pos (decide_eq_true rfl)]
    · rw [Function.update_of_ne hu]
      cases hst : st u with
      | out a => simp only [wake, hst]
      | woken q => simp only [wake, hst]
      | blocked d q => simp only [wake, hst, decide_eq_true_eq, hu, and_false, if_false]
  refine ⟨_, ⟨fun u => decide (u = t), fun _ => ⟨t, p, h, decide_eq_true rfl, ?_⟩, hsame⟩, rfl⟩
  exact fun _ u hu => of_decide_eq_true hu

/-- A signal that wakes one thread at a time. -/
theorem Notified.signal_one [DecidableEq τ] {c : κ} {st st' : τ → Status α κ ρ}
    (h : Notified .one [.signal c] st st') :
    ¬ Waiting st c ∧ st' = st ∨
      ∃ t p, st t = .blocked c p ∧ st' = Function.update st t (.woken p) := by
  obtain ⟨st₁, ⟨S, hS, rfl⟩, rfl⟩ := h
  by_cases hw : Waiting st c
  · obtain ⟨t, p, ht, hin, hone⟩ := hS hw
    refine .inr ⟨t, p, ht, funext fun u => ?_⟩
    by_cases hu : u = t
    · rw [hu, Function.update_self, wake_blocked ht, if_pos hin]
    · rw [Function.update_of_ne hu]
      have hout : ∀ c', ¬ (c' = c ∧ S u = true) := fun _ hc => hu (hone rfl u hc.2)
      cases hst : st u with
      | out a => simp only [wake, hst]
      | woken q => simp only [wake, hst]
      | blocked c' q => simp only [wake, hst, if_neg (hout c')]
  · refine .inl ⟨hw, funext fun u => ?_⟩
    cases hst : st u with
    | out a => simp only [wake, hst]
    | woken q => simp only [wake, hst]
    | blocked c' q =>
      have hne : ¬ (c' = c ∧ S u = true) := fun hc => hw ⟨u, q, by rw [hst, hc.1]⟩
      simp only [wake, hst, if_neg hne]

end Notifications

/-! ## Steps -/

section Steps

variable [DecidableEq κ] [DecidableEq τ]

/-- Thread `t` runs a stretch: those whom it notifies are woken, then the thread itself is moved. -/
def Runs (w : Wakes) (t : τ) (x : Stretch σ α κ ρ) (s s' : State σ τ α κ ρ) : Prop :=
  ∃ st, Notified w x.notify s.status st ∧ s' = ⟨x.shared, Function.update st t x.next.status⟩

/-- What an event does to the state.  A thread that is woken for no reason runs only later, as one
    that was signalled does. -/
def Step (m : Code σ τ α κ ρ φ) (w : Wakes) (s : State σ τ α κ ρ) (e : Event τ φ)
    (s' : State σ τ α κ ρ) : Prop :=
  match e with
  | .enter t f => ∃ a, s.status t = .out a ∧ m.may t a f ∧ Runs w t (m.enter f t a s.shared) s s'
  | .resume t => ∃ p, s.status t = .woken p ∧ Runs w t (m.resume p t s.shared) s s'
  | .spurious t => ∃ c p, s.status t = .blocked c p ∧
      s' = ⟨s.shared, Function.update s.status t (.woken p)⟩

/-- A step where a signal wakes one thread is a step. -/
theorem Step.some {m : Code σ τ α κ ρ φ} {s s' : State σ τ α κ ρ} {e : Event τ φ}
    (h : Step m .one s e s') : Step m .some s e s' := by
  cases e with
  | enter t f =>
    obtain ⟨a, ha, hmay, st, hst, hs⟩ := h
    exact ⟨a, ha, hmay, st, hst.some, hs⟩
  | resume t =>
    obtain ⟨p, hp, st, hst, hs⟩ := h
    exact ⟨p, hp, st, hst.some, hs⟩
  | spurious t => exact h

/-- The runs of a monitor from given states. -/
def system (m : Code σ τ α κ ρ φ) (w : Wakes) (start : State σ τ α κ ρ → Prop) :
    Lts (State σ τ α κ ρ) (Event τ φ) where
  start := start
  step := Step m w

/-- A thread starts a call. -/
theorem reach_enter {m : Code σ τ α κ ρ φ} {w : Wakes} {start : State σ τ α κ ρ → Prop}
    {s : State σ τ α κ ρ} (t : τ) (f : φ) (h : (system m w start).Reach s) {a : α}
    (ht : s.status t = .out a) (hm : m.may t a f) {st : τ → Status α κ ρ}
    (hst : Notified w (m.enter f t a s.shared).notify s.status st) :
    (system m w start).Reach ⟨(m.enter f t a s.shared).shared,
      Function.update st t (m.enter f t a s.shared).next.status⟩ :=
  .step (e := .enter t f) h ⟨a, ht, hm, st, hst, rfl⟩

/-- The same where some events are excluded. -/
theorem reach_enter_guard {m : Code σ τ α κ ρ φ} {w : Wakes} {start : State σ τ α κ ρ → Prop}
    {ok : State σ τ α κ ρ → Event τ φ → Prop} {s : State σ τ α κ ρ} (t : τ) (f : φ)
    (h : ((system m w start).guard ok).Reach s) (hok : ok s (.enter t f)) {a : α}
    (ht : s.status t = .out a) (hm : m.may t a f) {st : τ → Status α κ ρ}
    (hst : Notified w (m.enter f t a s.shared).notify s.status st) :
    ((system m w start).guard ok).Reach ⟨(m.enter f t a s.shared).shared,
      Function.update st t (m.enter f t a s.shared).next.status⟩ :=
  .step (e := .enter t f) h ⟨hok, a, ht, hm, st, hst, rfl⟩

/-- A thread that has been woken goes on. -/
theorem reach_resume_guard {m : Code σ τ α κ ρ φ} {w : Wakes} {start : State σ τ α κ ρ → Prop}
    {ok : State σ τ α κ ρ → Event τ φ → Prop} {s : State σ τ α κ ρ} (t : τ)
    (h : ((system m w start).guard ok).Reach s) (hok : ok s (.resume t)) {p : ρ}
    (ht : s.status t = .woken p) {st : τ → Status α κ ρ}
    (hst : Notified w (m.resume p t s.shared).notify s.status st) :
    ((system m w start).guard ok).Reach ⟨(m.resume p t s.shared).shared,
      Function.update st t (m.resume p t s.shared).next.status⟩ :=
  .step (e := .resume t) h ⟨hok, p, ht, st, hst, rfl⟩

section Runs

variable {w : Wakes} {t u : τ} {x : Stretch σ α κ ρ} {s s' : State σ τ α κ ρ}

/-- A stretch can always be run. -/
theorem exists_runs (w : Wakes) (t : τ) (x : Stretch σ α κ ρ) (s : State σ τ α κ ρ) :
    ∃ s', Runs w t x s s' := by
  obtain ⟨st, hst⟩ := exists_notified w x.notify s.status
  exact ⟨_, st, hst, rfl⟩

theorem Runs.shared (h : Runs w t x s s') : s'.shared = x.shared := by
  obtain ⟨st, -, rfl⟩ := h
  rfl

theorem Runs.self (h : Runs w t x s s') : s'.status t = x.next.status := by
  obtain ⟨st, -, rfl⟩ := h
  exact Function.update_self t _ st

/-- A stretch without notifications moves its own thread only. -/
theorem Runs.quiet (h : Runs w t x s s') (hx : x.notify = []) :
    s'.status = Function.update s.status t x.next.status := by
  obtain ⟨st, hst, rfl⟩ := h
  rw [hx] at hst
  have hsame : st = s.status := hst
  rw [hsame]

/-- A stretch that signals once, where a signal wakes one thread. -/
theorem Runs.signal_one (h : Runs .one t x s s') {c : κ} (hx : x.notify = [.signal c]) :
    ¬ Waiting s.status c ∧ s'.status = Function.update s.status t x.next.status ∨
      ∃ u p, s.status u = .blocked c p ∧
        s'.status = Function.update (Function.update s.status u (.woken p)) t x.next.status := by
  obtain ⟨st, hst, rfl⟩ := h
  rw [hx] at hst
  rcases hst.signal_one with ⟨hno, hsame⟩ | ⟨u, p, hu, hst⟩
  · exact .inl ⟨hno, by rw [hsame]⟩
  · exact .inr ⟨u, p, hu, by rw [hst]⟩

/-- A stretch that signals once and wakes no two threads might as well have run where a signal
    wakes one. -/
theorem Runs.one (h : Runs w t x s s') {c : κ} (hx : x.notify = [.signal c])
    (ht : ∀ d p, s.status t ≠ .blocked d p)
    (hone : ∀ u v d e p q, s.status u = .blocked d p → s'.status u = .woken p →
      s.status v = .blocked e q → s'.status v = .woken q → u = v) : Runs .one t x s s' := by
  obtain ⟨st, hst, rfl⟩ := h
  rw [hx] at hst
  obtain ⟨_, ⟨S, hS, rfl⟩, rfl⟩ := hst
  by_cases hw : Waiting s.status c
  · obtain ⟨v, q, hv, hin, -⟩ := hS hw
    have hother : ∀ u, u ≠ t → Function.update (wake s.status c S) t x.next.status u =
        wake s.status c S u := fun u hu => Function.update_of_ne hu _ _
    have hsame : wake s.status c S = wake s.status c fun u => decide (u = v) := by
      funext u
      cases hu : s.status u with
      | out a => simp only [wake, hu]
      | woken p => simp only [wake, hu]
      | blocked d p =>
        by_cases hd : d = c
        · rw [hd] at hu
          rw [wake_blocked hu, wake_blocked hu]
          by_cases huv : u = v
          · rw [huv, if_pos hin, if_pos (decide_eq_true rfl)]
          · -- a second thread that the signal has woken
            rw [if_neg fun hdec => huv (of_decide_eq_true hdec), if_neg]
            intro hSu
            refine huv (hone u v c c p q hu ?_ hv ?_)
            · exact (hother u fun hut => ht c p (hut ▸ hu)).trans
                ((wake_blocked hu).trans (if_pos hSu))
            · exact (hother v fun hvt => ht c q (hvt ▸ hv)).trans
                ((wake_blocked hv).trans (if_pos hin))
        · simp only [wake, hu, if_neg fun hcd : d = c ∧ _ => hd hcd.1]
    refine ⟨_, ?_, rfl⟩
    rw [hx]
    refine ⟨_, ⟨fun u => decide (u = v), fun _ => ⟨v, q, hv, decide_eq_true rfl, ?_⟩, hsame⟩, rfl⟩
    exact fun _ u hu => of_decide_eq_true hu
  · refine ⟨_, ?_, rfl⟩
    rw [hx]
    exact ⟨_, ⟨S, fun hwait => absurd hwait hw, rfl⟩, rfl⟩

/-- Another thread stays where it is, or is woken. -/
theorem Runs.other (h : Runs w t x s s') (hu : u ≠ t) :
    s'.status u = s.status u ∨ ∃ c p, s.status u = .blocked c p ∧ s'.status u = .woken p := by
  obtain ⟨st, hst, rfl⟩ := h
  have heq : Function.update st t x.next.status u = st u := Function.update_of_ne hu _ st
  simp only [heq]
  exact hst.stirred u

/-- Another thread that is blocked was so before. -/
theorem Runs.blocked (h : Runs w t x s s') (hu : u ≠ t) {c : κ} {p : ρ}
    (hb : s'.status u = .blocked c p) : s.status u = .blocked c p := by
  rcases h.other hu with heq | ⟨c', p', -, hw⟩
  · rw [← heq, hb]
  · rw [hw] at hb
    cases hb

/-- Another thread that is woken waited on the channel of a notification. -/
theorem Runs.channel (h : Runs w t x s s') (hu : u ≠ t) {c : κ} {p q : ρ}
    (hb : s.status u = .blocked c p) (hw : s'.status u = .woken q) :
    c ∈ x.notify.map Notify.channel := by
  obtain ⟨st, hst, rfl⟩ := h
  have heq : Function.update st t x.next.status u = st u := Function.update_of_ne hu _ st
  by_contra hc
  have hsame := hst.apart hc hb
  simp only [heq, hsame] at hw
  cases hw

theorem Runs.woken (h : Runs w t x s s') (hu : u ≠ t) {p : ρ} (hw : s.status u = .woken p) :
    s'.status u = .woken p := by
  rcases h.other hu with heq | ⟨c', p', hb, -⟩
  · rw [heq, hw]
  · rw [hw] at hb
    cases hb

/-- After a broadcast only the running thread may be blocked. -/
theorem Runs.broadcast (h : Runs w t x s s') {c : κ} (hx : .broadcast c ∈ x.notify) (hu : u ≠ t)
    {p : ρ} : s'.status u ≠ .blocked c p := by
  obtain ⟨st, hst, rfl⟩ := h
  intro hb
  have heq : Function.update st t x.next.status u = st u := Function.update_of_ne hu _ st
  exact hst.broadcast hx ⟨u, p, by rw [← heq]; exact hb⟩

/-- After a signal, a thread that is still blocked has seen another one woken. -/
theorem Runs.signal (h : Runs w t x s s') {c : κ} (hx : .signal c ∈ x.notify)
    (ht : ∀ c p, s.status t ≠ .blocked c p) (hu : u ≠ t) {q : ρ}
    (hb : s'.status u = .blocked c q) :
    ∃ v p, v ≠ t ∧ s.status v = .blocked c p ∧ s'.status v = .woken p := by
  obtain ⟨st, hst, rfl⟩ := h
  have heq : Function.update st t x.next.status u = st u := Function.update_of_ne hu _ st
  obtain ⟨v, p, hv, hw⟩ := hst.signal hx ⟨u, q, by rw [← heq]; exact hb⟩
  have hne : v ≠ t := fun hvt => ht c p (hvt ▸ hv)
  exact ⟨v, p, hne, hv, by rw [← hw]; exact Function.update_of_ne hne _ st⟩

/-- **What being woken does not change** of a status follows the running thread only. -/
theorem Runs.view {β : Type} {V : Status α κ ρ → β} (hV : ∀ c p, V (.woken p) = V (.blocked c p))
    (h : Runs w t x s s') : (fun u => V (s'.status u)) =
      Function.update (fun u => V (s.status u)) t (V x.next.status) := by
  funext u
  by_cases hu : u = t
  · rw [hu, Function.update_self, h.self]
  · rw [Function.update_of_ne hu]
    rcases h.other hu with heq | ⟨c, p, hb, hw⟩
    · rw [heq]
    · rw [hb, hw, hV c p]

end Runs

end Steps

/-! ## Counting threads -/

section Counting

variable {β : Type} [Fintype τ]

/-- The number of threads at which `f` has `P`. -/
def count (P : β → Bool) (f : τ → β) : Nat := (Finset.univ.filter fun t => P (f t) = true).card

theorem count_congr {P : β → Bool} {f f' : τ → β} (h : ∀ t, P (f' t) = P (f t)) :
    count P f' = count P f := by
  simp only [count, h]

/-- Being woken does not change what is counted the same on both sides. -/
theorem Stirred.count {P : Status α κ ρ → Bool} (hP : ∀ c p, P (.woken p) = P (.blocked c p))
    {st st' : τ → Status α κ ρ} (h : Stirred st st') : count P st' = count P st := by
  refine count_congr fun t => ?_
  rcases h t with heq | ⟨c, p, hb, hw⟩
  · rw [heq]
  · rw [hb, hw, hP c p]

theorem count_eq_zero {P : β → Bool} {f : τ → β} : count P f = 0 ↔ ∀ t, P (f t) = false := by
  simp only [count, Finset.card_eq_zero, Finset.filter_eq_empty_iff, Finset.mem_univ,
    forall_true_left, Bool.not_eq_true]

theorem count_pos {P : β → Bool} {f : τ → β} {t : τ} (h : P (f t) = true) : 0 < count P f :=
  Finset.card_pos.mpr ⟨t, Finset.mem_filter.mpr ⟨Finset.mem_univ t, h⟩⟩

theorem exists_of_count_pos {P : β → Bool} {f : τ → β} (h : 0 < count P f) :
    ∃ t, P (f t) = true := by
  obtain ⟨t, ht⟩ := Finset.card_pos.mp h
  exact ⟨t, (Finset.mem_filter.mp ht).2⟩

/-- **One thread moves**: a count changes by what the thread was and is. -/
theorem count_update [DecidableEq τ] (P : β → Bool) (f : τ → β) (t : τ) (x : β) :
    count P (Function.update f t x) + (if P (f t) then 1 else 0) =
      count P f + if P x then 1 else 0 := by
  have hsplit : ∀ f : τ → β, count P f =
      ((Finset.univ.erase t).filter fun u => P (f u) = true).card + if P (f t) then 1 else 0 := by
    intro f
    rw [count, ← Finset.insert_erase (Finset.mem_univ t), Finset.filter_insert]
    split
    · rw [Finset.card_insert_of_notMem (by simp), Finset.erase_insert (by simp)]
    · rw [Finset.erase_insert (by simp), Nat.add_zero]
  have hrest : ((Finset.univ.erase t).filter fun u => P (Function.update f t x u) = true) =
      (Finset.univ.erase t).filter fun u => P (f u) = true := by
    refine Finset.filter_congr fun u hu => ?_
    rw [Function.update_of_ne (Finset.ne_of_mem_erase hu)]
  rw [hsplit (Function.update f t x), hsplit f, hrest, Function.update_self]
  omega

/-- A thread that is counted before and after, or neither. -/
theorem count_update_same [DecidableEq τ] {P : β → Bool} {f : τ → β} {t : τ} {x : β}
    (h : P x = P (f t)) : count P (Function.update f t x) = count P f := by
  have hmove := count_update P f t x
  rw [h] at hmove
  omega

/-- A thread that is counted from now on. -/
theorem count_update_add [DecidableEq τ] {P : β → Bool} {f : τ → β} {t : τ} {x : β}
    (ht : P (f t) = false) (hx : P x = true) :
    count P (Function.update f t x) = count P f + 1 := by
  have hmove := count_update P f t x
  simp only [ht, hx, Bool.false_eq_true, if_false, if_true] at hmove
  exact hmove

/-- A thread that is no longer counted. -/
theorem count_update_sub [DecidableEq τ] {P : β → Bool} {f : τ → β} {t : τ} {x : β}
    (ht : P (f t) = true) (hx : P x = false) :
    count P (Function.update f t x) + 1 = count P f := by
  have hmove := count_update P f t x
  simp only [ht, hx, Bool.false_eq_true, if_false, if_true] at hmove
  exact hmove

/-- Two kinds that exclude each other are counted one by one. -/
theorem count_or [DecidableEq τ] {P Q R : β → Bool} (hor : ∀ x, P x = (Q x || R x))
    (hno : ∀ x, Q x = true → R x = false) (f : τ → β) : count P f = count Q f + count R f := by
  have hdisj : Disjoint (Finset.univ.filter fun t => Q (f t) = true)
      (Finset.univ.filter fun t => R (f t) = true) := by
    refine Finset.disjoint_filter.mpr fun t _ hq hr => ?_
    rw [hno _ hq] at hr
    cases hr
  rw [count, count, count, ← Finset.card_union_of_disjoint hdisj, ← Finset.filter_or]
  simp only [hor, Bool.or_eq_true]

/-- What a stretch does to a count that waits on both sides of a wait. -/
theorem Runs.count [DecidableEq κ] [DecidableEq τ] {P : Status α κ ρ → Bool}
    (hP : ∀ c p, P (.woken p) = P (.blocked c p)) {w : Wakes} {t : τ} {x : Stretch σ α κ ρ}
    {s s' : State σ τ α κ ρ} (h : Runs w t x s s') :
    count P s'.status + (if P (s.status t) then 1 else 0) =
      count P s.status + if P x.next.status then 1 else 0 := by
  have hview := h.view hP
  have hmove := count_update (fun b => b) (fun u => P (s.status u)) t (P x.next.status)
  rw [← hview] at hmove
  exact hmove

end Counting

end OsCodes.Monitor
