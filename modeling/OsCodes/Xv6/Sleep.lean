/-
  `sleep` and `wakeup` of proc.c, step by step.

  The code that uses them is any `Monitor.Code` whose notifications are wakeups: stretches that run
  with a spinlock `lk` and end in its release or in `sleep(c, lk)`.  Here every `acquire` and
  `release` of `lk` and of `ptable.lock` is a step of its own, and so are what happens between them
  and the scheduler's choice of a process; the processes interleave as they like.

  What is read and written with a lock held is one step, since nobody else can see the half of it.
  `killed` is not modelled: whom `kill` wakes goes on as after any wakeup.  Left out as well is
  the case `lk == &ptable.lock` of `sleep`, in which it neither releases nor acquires: `wait` is
  its only user, and the two locks of this model are different ones.

  A process that sleeps keeps `ptable.lock` through `sched`, and the scheduler gives it up; here
  the lock is free once the table says SLEEPING and the process is in `sched`, and it is taken
  again by `dispatch`.  `status` and `State.abs` say what the monitor sees of a state; that every
  step is one of the monitor, or nothing to it, is proved in `SleepLaw`.
-/
import OsCodes.Lib.Monitor
import OsCodes.Xv6.Ptable

namespace OsCodes.Sleep

open Monitor Ptable

/-- The fields of `struct proc` that `sleep` and `wakeup` use. -/
structure Proc (κ : Type) where
  state : ProcState
  chan : Option κ

/-- How a stretch starts: with a call from `a`, or behind a `sleep`. -/
inductive Start (α ρ φ : Type)
  | enter (f : φ) (a : α)
  | resume (p : ρ)

/-- Where a process is.  `n` is how its stretch ends, and `cs` is whom it has yet to wake up. -/
inductive Pc (α κ ρ φ : Type)
  /-- In the client's code. -/
  | user (a : α)
  /-- In `acquire(lk)`. -/
  | acquire (g : Start α ρ φ)
  /-- Behind `acquire(lk)`. -/
  | locked (g : Start α ρ φ)
  /-- With `lk`, before the next call of `wakeup`, or of `sleep` or `release(lk)`. -/
  | notify (cs : List κ) (n : Next α κ ρ)
  /-- In `wakeup(c)`, before `wakeup1`. -/
  | wakeup (c : κ) (cs : List κ) (n : Next α κ ρ)
  /-- In `wakeup(c)`, behind `wakeup1`. -/
  | woken (cs : List κ) (n : Next α κ ρ)
  /-- In `sleep`, before `release(lk)`. -/
  | sleep (c : κ) (p : ρ)
  /-- In `sleep`, behind `release(lk)`. -/
  | released (c : κ) (p : ρ)
  /-- In `sleep`, before `sched()`. -/
  | marked (c : κ) (p : ρ)
  /-- In `sched()`. -/
  | sched (c : κ) (p : ρ)
  /-- In `sleep`, behind `sched()`. -/
  | tidy (p : ρ)

/-- The two locks with who holds them, the data that `lk` protects, and the process table. -/
structure State (σ τ α κ ρ φ : Type) where
  lk : Option τ
  ptlock : Option τ
  shared : σ
  proc : τ → Proc κ
  pc : τ → Pc α κ ρ φ

/-- A process starts a call or takes its next step, the scheduler switches to one, or one
    is killed. -/
inductive Event (τ φ : Type)
  | call (t : τ) (f : φ)
  | advance (t : τ)
  /-- The scheduler switches to a process. -/
  | dispatch (t : τ)
  | kill (t : τ)

section Code

variable {σ τ α κ ρ φ : Type}

/-- What a stretch does. -/
def stretch (m : Code σ τ α κ ρ φ) (g : Start α ρ φ) (t : τ) (x : σ) : Stretch σ α κ ρ :=
  match g with
  | .enter f a => m.enter f t a x
  | .resume p => m.resume p t x

variable [DecidableEq κ]

/-- `wakeup1`. -/
def wakeup1 (c : κ) (proc : τ → Proc κ) : τ → Proc κ := fun p =>
  if (proc p).state = .sleeping ∧ (proc p).chan = some c then { proc p with state := .runnable }
  else proc p

variable [DecidableEq τ]

/-- The next step of a process. -/
def advance (m : Code σ τ α κ ρ φ) (t : τ) (s : State σ τ α κ ρ φ) : Option (State σ τ α κ ρ φ) :=
  let go := Function.update s.pc t
  match s.pc t with
  | .user _ => none
  | .acquire g => if s.lk = none then some { s with lk := some t, pc := go (.locked g) } else none
  | .locked g =>
    let x := stretch m g t s.shared
    some { s with shared := x.shared, pc := go (.notify (x.notify.map Notify.channel) x.next) }
  | .notify [] (.leave a) => some { s with lk := none, pc := go (.user a) }
  | .notify [] (.wait c p) =>
    if s.ptlock = none then some { s with ptlock := some t, pc := go (.sleep c p) } else none
  | .notify (c :: cs) n =>
    if s.ptlock = none then some { s with ptlock := some t, pc := go (.wakeup c cs n) } else none
  | .wakeup c cs n => some { s with proc := wakeup1 c s.proc, pc := go (.woken cs n) }
  | .woken cs n => some { s with ptlock := none, pc := go (.notify cs n) }
  | .sleep c p => some { s with lk := none, pc := go (.released c p) }
  | .released c p =>
    some { s with proc := Function.update s.proc t ⟨.sleeping, some c⟩, pc := go (.marked c p) }
  -- the scheduler releases the lock that it was given
  | .marked c p => some { s with ptlock := none, pc := go (.sched c p) }
  | .sched _ _ => none
  | .tidy p =>
    some { s with
      ptlock := none
      proc := Function.update s.proc t { s.proc t with chan := none }
      pc := go (.acquire (.resume p)) }

/-- `scheduler` switches to `t`, which comes back from `sched()` with `ptable.lock`. -/
def dispatch (t : τ) (s : State σ τ α κ ρ φ) : Option (State σ τ α κ ρ φ) :=
  match s.pc t with
  | .sched _ p =>
    if s.ptlock = none ∧ (s.proc t).state = .runnable then
      some { s with
        ptlock := some t
        proc := Function.update s.proc t { s.proc t with state := .running }
        pc := Function.update s.pc t (.tidy p) }
    else none
  | _ => none

/-- `kill`, for the process `t`. -/
def kill (t : τ) (s : State σ τ α κ ρ φ) : Option (State σ τ α κ ρ φ) :=
  if s.ptlock = none then
    if (s.proc t).state = .sleeping then
      some { s with proc := Function.update s.proc t { s.proc t with state := .runnable } }
    else some s
  else none

/-- What happens next: a call, a step of a thread, the scheduler choosing one, or a `kill`. -/
def Step (m : Code σ τ α κ ρ φ) (s : State σ τ α κ ρ φ) (e : Event τ φ)
    (s' : State σ τ α κ ρ φ) : Prop :=
  match e with
  | .call t f => ∃ a, s.pc t = .user a ∧ m.may t a f ∧
      s' = { s with pc := Function.update s.pc t (.acquire (.enter f a)) }
  | .advance t => advance m t s = some s'
  | .dispatch t => dispatch t s = some s'
  | .kill t => kill t s = some s'

/-! ## What the monitor sees -/

/-- Where the monitor has a process. -/
def status (q : Proc κ) : Pc α κ ρ φ → Status α κ ρ
  | .user a | .acquire (.enter _ a) | .locked (.enter _ a) => .out a
  | .acquire (.resume p) | .locked (.resume p) | .tidy p => .woken p
  | .notify _ n | .wakeup _ _ n | .woken _ n => n.status
  | .sleep c p | .released c p | .marked c p => .blocked c p
  | .sched c p => if q.state = .sleeping then .blocked c p else .woken p

/-- The state of the monitor for which the locks, the channels and the process table stand. -/
def State.abs (s : State σ τ α κ ρ φ) : Monitor.State σ τ α κ ρ :=
  ⟨s.shared, fun t => status (s.proc t) (s.pc t)⟩

/-- The runs from states in which no process is in a call. -/
def system (m : Code σ τ α κ ρ φ) (start : Monitor.State σ τ α κ ρ → Prop) :
    Lts (State σ τ α κ ρ φ) (Event τ φ) where
  start s := start s.abs ∧ s.lk = none ∧ s.ptlock = none ∧
    ∀ t, (∃ a, s.pc t = .user a) ∧ (s.proc t).state = .running
  step := Step m

end Code

end OsCodes.Sleep
