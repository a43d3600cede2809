/-
  The bounded buffer of master-worker.c: masters produce the items 0, 1, 2, ... into a buffer that
  workers empty from its end.

  Each thread runs one stretch after another until a test tells it that the work is done.  `Turn`
  lists what a stretch can be.  The invariant has two parts: `Book` says where the items are, and
  `Inv` adds what a blocked or an exited thread says about the counters.

  The functions are cut where they wait: `generate_requests_loop` has a part up to the test of its
  inner loop and one behind it, and so has `worker_thread_create`, since a thread that is woken
  goes back to the test.  The counters are integers; they stay between 0 and `total_items`, so the
  width of the source's `int` does not matter.  What the two `print` functions print is kept,
  because `check.awk` reads it; the texts that `main` prints are left out.
-/
import OsCodes.Lib.Monitor

namespace OsCodes.MasterWorker

open Monitor

/-! ## The code -/

/-- The threads that `main` starts, by kind and number. -/
inductive Thread (numMasters numWorkers : Nat)
  | master (id : Fin numMasters)
  | worker (id : Fin numWorkers)
  deriving DecidableEq

/-- A line of the output. -/
inductive Line
  | produced (num : Int) (master : Nat)
  | consumed (num : Int) (worker : Nat)

/-- The variables under `mute`, and what has been printed. -/
structure Shared where
  itemToProduce : Int
  currBufSize : Int
  itemRead : Int
  buffer : Int → Int
  output : List Line

/-- `cond_of_m` and `cond_of_w`. -/
inductive Cond
  | ofM
  | ofW
  deriving DecidableEq

/-- Where a thread is outside the mutex. -/
inductive Phase
  | looping
  | exited

/-- The command line: how many numbers are made in all, and how many the buffer takes. -/
structure Args where
  totalItems : Int
  maxBufSize : Int

abbrev Turns := Stretch Shared Phase Cond Unit

/-- `print_produced`. -/
def printProduced (num : Int) (master : Nat) (s : Shared) : Shared :=
  { s with output := s.output ++ [.produced num master] }

/-- `print_consumed`. -/
def printConsumed (num : Int) (worker : Nat) (s : Shared) : Shared :=
  { s with output := s.output ++ [.consumed num worker] }

/-- A master puts the next item into the buffer. -/
def put (id : Nat) (s : Shared) : Shared :=
  let s := { s with buffer := Function.update s.buffer s.currBufSize s.itemToProduce,
                    currBufSize := s.currBufSize + 1 }
  let s := printProduced s.itemToProduce id s
  { s with itemToProduce := s.itemToProduce + 1 }

/-- A worker takes the last item of the buffer. -/
def take (id : Nat) (s : Shared) : Shared :=
  let s := { s with currBufSize := s.currBufSize - 1 }
  let s := printConsumed (s.buffer s.currBufSize) id s
  { s with itemRead := s.itemRead + 1 }

/-- `generate_requests_loop` after its inner loop. -/
def generateRequestsPut (a : Args) (id : Nat) (s : Shared) : Turns :=
  if s.itemToProduce ≥ a.totalItems then ⟨s, [], .leave .exited⟩
  else ⟨put id s, [.broadcast .ofW], .leave .looping⟩

/-- `generate_requests_loop` from the test of its inner loop. -/
def generateRequestsWait (a : Args) (id : Nat) (s : Shared) : Turns :=
  if s.currBufSize = a.maxBufSize then
    if s.itemToProduce ≥ a.totalItems then generateRequestsPut a id s
    else ⟨s, [], .wait .ofM ()⟩
  else generateRequestsPut a id s

/-- `generate_requests_loop`, one round. -/
def generateRequestsLoop (a : Args) (id : Nat) (s : Shared) : Turns :=
  if s.itemToProduce ≥ a.totalItems then ⟨s, [], .leave .exited⟩
  else generateRequestsWait a id s

/-- `worker_thread_create` after its inner loop. -/
def workerThreadTake (a : Args) (id : Nat) (s : Shared) : Turns :=
  if s.itemRead ≥ a.totalItems then ⟨s, [], .leave .exited⟩
  else ⟨take id s, [.broadcast .ofM], .leave .looping⟩

/-- `worker_thread_create` from the test of its inner loop. -/
def workerThreadWait (a : Args) (id : Nat) (s : Shared) : Turns :=
  if s.currBufSize = 0 then
    if s.itemRead ≥ a.totalItems then workerThreadTake a id s
    else ⟨s, [], .wait .ofW ()⟩
  else workerThreadTake a id s

/-- `worker_thread_create`, one round. -/
def workerThreadCreate (a : Args) (id : Nat) (s : Shared) : Turns :=
  if s.itemRead ≥ a.totalItems then ⟨s, [], .leave .exited⟩
  else workerThreadWait a id s

variable {m n : Nat}

/-- A thread that has not exited goes round its loop. -/
def code (a : Args) (m n : Nat) : Code Shared (Thread m n) Phase Cond Unit Unit where
  may _ p _ := p = .looping
  enter _ t _ s := match t with
    | .master id => generateRequestsLoop a id s
    | .worker id => workerThreadCreate a id s
  resume _ t s := match t with
    | .master id => generateRequestsWait a id s
    | .worker id => workerThreadWait a id s

abbrev St (m n : Nat) := State Shared (Thread m n) Phase Cond Unit

/-- `main`: all threads start with empty counters. -/
def masterWorker (a : Args) (m n : Nat) : Lts (St m n) (Event (Thread m n) Unit) :=
  system (code a m n) .some fun s =>
    (∃ buffer, s.shared = ⟨0, 0, 0, buffer, []⟩) ∧ ∀ t, s.status t = .out .looping

/-! ## Stretches -/

/-- What a stretch of a thread can be. -/
inductive Turn (a : Args) : Thread m n → Shared → Turns → Prop
  | masterExit {id : Fin m} {s : Shared} : a.totalItems ≤ s.itemToProduce →
      Turn a (.master id) s ⟨s, [], .leave .exited⟩
  | masterWait {id : Fin m} {s : Shared} : s.currBufSize = a.maxBufSize →
      s.itemToProduce < a.totalItems → Turn a (.master id) s ⟨s, [], .wait .ofM ()⟩
  | put {id : Fin m} {s : Shared} : s.currBufSize ≠ a.maxBufSize →
      s.itemToProduce < a.totalItems →
      Turn a (.master id) s ⟨put id s, [.broadcast .ofW], .leave .looping⟩
  | workerExit {id : Fin n} {s : Shared} : a.totalItems ≤ s.itemRead →
      Turn a (.worker id) s ⟨s, [], .leave .exited⟩
  | workerWait {id : Fin n} {s : Shared} : s.currBufSize = 0 → s.itemRead < a.totalItems →
      Turn a (.worker id) s ⟨s, [], .wait .ofW ()⟩
  | take {id : Fin n} {s : Shared} : s.currBufSize ≠ 0 → s.itemRead < a.totalItems →
      Turn a (.worker id) s ⟨take id s, [.broadcast .ofM], .leave .looping⟩

theorem turn_masterWait (a : Args) (id : Fin m) (s : Shared) :
    Turn (n := n) a (.master id) s (generateRequestsWait a id s) := by
  unfold generateRequestsWait generateRequestsPut
  by_cases hdone : s.itemToProduce ≥ a.totalItems
  · simp only [if_pos hdone, ite_self]
    exact .masterExit hdone
  · simp only [if_neg hdone]
    split
    case isTrue hfull => exact .masterWait hfull (Int.lt_of_not_ge hdone)
    case isFalse hroom => exact .put hroom (Int.lt_of_not_ge hdone)

theorem turn_workerWait (a : Args) (id : Fin n) (s : Shared) :
    Turn (m := m) a (.worker id) s (workerThreadWait a id s) := by
  unfold workerThreadWait workerThreadTake
  by_cases hdone : s.itemRead ≥ a.totalItems
  · simp only [if_pos hdone, ite_self]
    exact .workerExit hdone
  · simp only [if_neg hdone]
    split
    case isTrue hempty => exact .workerWait hempty (Int.lt_of_not_ge hdone)
    case isFalse hsome => exact .take hsome (Int.lt_of_not_ge hdone)

/-- **A step** is a turn of one thread, or wakes a thread for no reason. -/
theorem step_cases {a : Args} {s s' : St m n} {e : Event (Thread m n) Unit}
    (h : (masterWorker a m n).step s e s') :
    (∃ t x, Turn a t s.shared x ∧ Runs .some t x s s') ∨
    s'.shared = s.shared ∧ Stirred s.status s'.status := by
  cases e with
  | enter t f =>
    obtain ⟨p, -, -, hrun⟩ := h
    refine .inl ⟨t, _, ?_, hrun⟩
    cases t with
    | master id =>
      show Turn a _ _ (generateRequestsLoop a id s.shared)
      unfold generateRequestsLoop
      split
      case isTrue hdone => exact .masterExit hdone
      case isFalse => exact turn_masterWait a id s.shared
    | worker id =>
      show Turn a _ _ (workerThreadCreate a id s.shared)
      unfold workerThreadCreate
      split
      case isTrue hdone => exact .workerExit hdone
      case isFalse => exact turn_workerWait a id s.shared
  | resume t =>
    obtain ⟨p, -, hrun⟩ := h
    refine .inl ⟨t, _, ?_, hrun⟩
    cases t with
    | master id => exact turn_masterWait a id s.shared
    | worker id => exact turn_workerWait a id s.shared
  | spurious t =>
    obtain ⟨c, p, hb, rfl⟩ := h
    exact .inr ⟨rfl, stirred_spurious hb⟩

end OsCodes.MasterWorker
