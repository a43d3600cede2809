/-
  The process table of xv6-public and the system calls that work on it.

  One event is what happens between taking and releasing `ptable.lock`, or a stretch that a
  process runs without the lock.  `fork` is four of them: it takes a slot, then may fail, copies
  the parent, and only then publishes the child; other processors run in between.

  What is left out of a slot is what these calls do not use: the context, the open files, the
  working directory and the name.  `ProcInfo` and `MaxPid` are called through system calls that
  take their arguments with `argint`; here they are functions of the table.

  `procInfo` reads the fields of the slot that it finds, one of them through `p->parent`.  Here a
  null parent is an error (`Fault.null`), since the question is what the call reports.  In the
  source the read goes to address 16 of the caller's memory, which may be mapped;
  `Paging.Lazy.procInfo` in `ProcInfoWrite` is the same function with its accesses to memory, and
  there the read is made.

  `Shape` is what every law about the table starts from: who is filling in which slot, and that a
  process in a system call has been published.
-/
import Mathlib.Data.Fintype.Basic
import Mathlib.Data.List.FinRange
import Mathlib.Logic.Function.Basic
import OsCodes.Lib.Lts

namespace OsCodes.Ptable

/-! ## The code -/

abbrev NPROC : Nat := 64

/-- A pointer into `ptable.proc`. -/
abbrev Slot := Fin NPROC

/-- `enum procstate`. -/
inductive ProcState
  | unused
  | embryo
  | sleeping
  | runnable
  | running
  | zombie
  deriving DecidableEq

/-- The parts of `struct proc` that these calls use.  `eip` is `tf->eip`. -/
structure Proc where
  sz : Nat
  state : ProcState
  pid : Int
  parent : Option Slot
  eip : Nat
  killed : Bool
  inctxt : Int
  prio : Int
  welcomeAddr : Nat
  returnAddr : Nat

abbrev Table := Slot → Proc

/-- `initproc`, which `userinit` puts into the first slot. -/
def initproc : Slot := 0

/-- The first slot, in table order, that the test of a loop picks. -/
def find (ok : Slot → Bool) : Option Slot := (List.finRange NPROC).find? ok

/-- What `allocproc` writes into the slot it found. -/
def allocproc (pid : Int) (p : Proc) : Proc :=
  { p with state := .embryo, pid := pid, inctxt := 0, prio := 500, welcomeAddr := 0,
           returnAddr := 0 }

/-- The loop of `allocproc`. -/
def unusedSlot (t : Table) : Option Slot := find fun p => (t p).state = .unused

/-- What `fork` copies into the child once it has its memory. -/
def forkCopy (curproc : Slot) (c np : Proc) : Proc :=
  let np := { np with sz := c.sz, parent := some curproc, eip := c.eip, returnAddr := c.eip }
  if c.welcomeAddr ≠ 0 then { np with eip := c.welcomeAddr } else np

/-- `exit`, under the lock: the children go to `initproc`. -/
def exit (curproc : Slot) (t : Table) : Table := fun p =>
  let q := if (t p).parent = some curproc then { t p with parent := some initproc } else t p
  if p = curproc then { q with state := .zombie } else q

/-- The child that a scan of `wait` stops at. -/
def zombieChild (curproc : Slot) (t : Table) : Option Slot :=
  find fun p => (t p).parent = some curproc ∧ (t p).state = .zombie

/-- What `wait` does to that child. -/
def reap (p : Proc) : Proc :=
  { p with pid := 0, parent := none, killed := false, state := .unused }

/-- The test that ends `wait` with -1. -/
def noPoint (curproc : Slot) (t : Table) : Bool :=
  (find fun p => (t p).parent = some curproc).isNone || (t curproc).killed

/-- `exec`, once it commits to the new image. -/
def exec (entry sz : Nat) (p : Proc) : Proc := { p with sz := sz, eip := entry }

/-- `sys_welcomeFunction`. -/
def sysWelcomeFunction (ptr : Nat) (p : Proc) : Int × Proc := (0, { p with welcomeAddr := ptr })

/-- `sys_welcomeDone`. -/
def sysWelcomeDone (p : Proc) : Int × Proc :=
  if p.returnAddr ≠ 0 then (0, { p with eip := p.returnAddr }) else (-1, p)

/-- `struct processInfo`. -/
structure ProcessInfo where
  ppid : Int
  psize : Nat
  numberContextSwitches : Int

/-- The slot whose fields `ProcInfo` copies. -/
def infoSlot (pid : Int) (t : Table) : Option Slot :=
  find fun p => (t p).pid = pid ∧ (t p).state ≠ .unused

/-- A null pointer was followed. -/
inductive Fault
  | null

/-- `ProcInfo`, which returns -1 (`none`) where no process has the pid. -/
def procInfo (pid : Int) (t : Table) : Except Fault (Option ProcessInfo) :=
  match infoSlot pid t with
  | none => .ok none
  | some p =>
    if pid = 1 then .ok (some ⟨0, (t p).sz, (t p).inctxt⟩)
    else match (t p).parent with
      | none => .error .null
      | some q => .ok (some ⟨(t q).pid, (t p).sz, (t p).inctxt⟩)

/-! ## Processes and what they do -/

/-- How far a process is in the system call it is in. -/
inductive Path
  | user
  /-- In `fork`, with a slot that `allocproc` gave it. -/
  | allocated (np : Slot)
  /-- In `fork`, with the child filled in. -/
  | copied (np : Slot)
  /-- In `wait`. -/
  | waiting

/-- The table, the pid that comes next, and how far each process is in its system call. -/
structure State where
  ptable : Table
  nextpid : Int
  path : Slot → Path

/-- What process `i` does next.  A system call is made by the `int` instruction at `a`, two bytes
    long. -/
inductive Event
  /-- The scheduler, `sleep` or `wakeup` changes the state of a process. -/
  | reschedule (i : Slot) (st : ProcState)
  | kill (i : Slot)
  | forkAlloc (i : Slot) (a : Nat)
  | forkFail (i : Slot)
  | forkCopy (i : Slot)
  | forkPublish (i : Slot)
  | exit (i : Slot)
  | waitCall (i : Slot) (a : Nat)
  | waitScan (i : Slot)
  | exec (i : Slot) (a entry sz : Nat)
  | welcomeFunction (i : Slot) (a ptr : Nat)
  | welcomeDone (i : Slot) (a : Nat)

/-- The states a process changes between once it has been published. -/
def Live (st : ProcState) : Prop := st = .sleeping ∨ st = .runnable ∨ st = .running

/-- Process `i` runs its own code, and no `trap` would send it to `exit`. -/
def Ready (s : State) (i : Slot) : Prop :=
  (s.ptable i).state = .running ∧ (s.ptable i).killed = false

namespace State

/-- The state after slot `i` is overwritten. -/
def set (s : State) (i : Slot) (p : Proc) : State :=
  { s with ptable := Function.update s.ptable i p }

/-- The state after process `i` moves on in its system call. -/
def go (s : State) (i : Slot) (w : Path) : State := { s with path := Function.update s.path i w }

/-- Process `i` as the kernel finds it, trapped by the instruction at `a`. -/
def trapped (s : State) (i : Slot) (a : Nat) : Proc := { s.ptable i with eip := a + 2 }

variable (s : State) (i : Slot) (p : Proc) (w : Path)

@[simp] theorem set_ptable : (s.set i p).ptable = Function.update s.ptable i p := rfl
@[simp] theorem set_nextpid : (s.set i p).nextpid = s.nextpid := rfl
@[simp] theorem set_path : (s.set i p).path = s.path := rfl
@[simp] theorem go_ptable : (s.go i w).ptable = s.ptable := rfl
@[simp] theorem go_nextpid : (s.go i w).nextpid = s.nextpid := rfl
@[simp] theorem go_path : (s.go i w).path = Function.update s.path i w := rfl

end State

/-- One event. -/
inductive Step : State → Event → State → Prop
  | reschedule {s : State} {i : Slot} {st : ProcState} :
      Live (s.ptable i).state → Live st →
      Step s (.reschedule i st) (s.set i { s.ptable i with state := st })
  | kill {s : State} {i : Slot} : Step s (.kill i) (s.set i { s.ptable i with killed := true })
  | forkAlloc {s : State} {i np : Slot} {a : Nat} :
      Ready s i → s.path i = .user → unusedSlot s.ptable = some np →
      Step s (.forkAlloc i a)
        { ((s.set i (s.trapped i a)).set np (allocproc s.nextpid (s.ptable np))).go i
            (.allocated np) with nextpid := s.nextpid + 1 }
  /-- No slot is left, and `fork` returns -1. -/
  | forkNone {s : State} {i : Slot} {a : Nat} :
      Ready s i → s.path i = .user → unusedSlot s.ptable = none →
      Step s (.forkAlloc i a) (s.set i (s.trapped i a))
  /-- No page is left for the kernel stack or for the memory, and `fork` returns -1. -/
  | forkFail {s : State} {i np : Slot} :
      (s.ptable i).state = .running → s.path i = .allocated np →
      Step s (.forkFail i) ((s.set np { s.ptable np with state := .unused }).go i .user)
  | forkCopy {s : State} {i np : Slot} :
      (s.ptable i).state = .running → s.path i = .allocated np →
      Step s (.forkCopy i)
        ((s.set np (Ptable.forkCopy i (s.ptable i) (s.ptable np))).go i (.copied np))
  | forkPublish {s : State} {i np : Slot} :
      (s.ptable i).state = .running → s.path i = .copied np →
      Step s (.forkPublish i) ((s.set np { s.ptable np with state := .runnable }).go i .user)
  | exit {s : State} {i : Slot} :
      (s.ptable i).state = .running → s.path i = .user → i ≠ initproc →
      Step s (.exit i) { s with ptable := Ptable.exit i s.ptable }
  | waitCall {s : State} {i : Slot} {a : Nat} :
      Ready s i → s.path i = .user →
      Step s (.waitCall i a) ((s.set i (s.trapped i a)).go i .waiting)
  | waitReap {s : State} {i p : Slot} :
      (s.ptable i).state = .running → s.path i = .waiting → zombieChild i s.ptable = some p →
      Step s (.waitScan i) ((s.set p (reap (s.ptable p))).go i .user)
  | waitNone {s : State} {i : Slot} :
      (s.ptable i).state = .running → s.path i = .waiting → zombieChild i s.ptable = none →
      noPoint i s.ptable = true → Step s (.waitScan i) (s.go i .user)
  | waitSleep {s : State} {i : Slot} :
      (s.ptable i).state = .running → s.path i = .waiting → zombieChild i s.ptable = none →
      noPoint i s.ptable = false →
      Step s (.waitScan i) (s.set i { s.ptable i with state := .sleeping })
  | exec {s : State} {i : Slot} {a entry sz : Nat} :
      Ready s i → s.path i = .user →
      Step s (.exec i a entry sz) (s.set i (Ptable.exec entry sz (s.trapped i a)))
  | welcomeFunction {s : State} {i : Slot} {a ptr : Nat} :
      Ready s i → s.path i = .user →
      Step s (.welcomeFunction i a ptr) (s.set i (sysWelcomeFunction ptr (s.trapped i a)).2)
  | welcomeDone {s : State} {i : Slot} {a : Nat} :
      Ready s i → s.path i = .user →
      Step s (.welcomeDone i a) (s.set i (sysWelcomeDone (s.trapped i a)).2)

/-- What `userinit` leaves: one process, with pid 1. -/
structure Booted (s : State) : Prop where
  init : (s.ptable initproc).state = .runnable
  pid : (s.ptable initproc).pid = 1
  parent : ∀ p, (s.ptable p).parent = none
  welcome : (s.ptable initproc).welcomeAddr = 0
  done : (s.ptable initproc).returnAddr = 0
  rest : ∀ p, p ≠ initproc → (s.ptable p).state = .unused
  path : ∀ p, s.path p = .user
  nextpid : s.nextpid = 2

/-- The kernel from boot. -/
def system : Lts State Event := ⟨Booted, Step⟩

/-- The table at boot. -/
def boot : State where
  ptable p := ⟨0, if p = initproc then .runnable else .unused, if p = initproc then 1 else 0, none,
    0, false, 0, 500, 0, 0⟩
  nextpid := 2
  path _ := .user

theorem boot_booted : Booted boot where
  init := rfl
  pid := rfl
  parent _ := rfl
  welcome := rfl
  done := rfl
  rest p hp := by simp [boot, hp]
  path _ := rfl
  nextpid := rfl

/-! ## Reading the table -/

theorem find_some {ok : Slot → Bool} {p : Slot} (h : find ok = some p) : ok p = true :=
  List.find?_some h

theorem find_none {ok : Slot → Bool} (h : find ok = none) (p : Slot) : ok p = false := by
  have := List.find?_eq_none.1 h p (List.mem_finRange p)
  simpa using this

theorem unusedSlot_some {t : Table} {p : Slot} (h : unusedSlot t = some p) :
    (t p).state = .unused := by
  simpa using find_some h

theorem zombieChild_some {t : Table} {i p : Slot} (h : zombieChild i t = some p) :
    (t p).parent = some i ∧ (t p).state = .zombie := by
  simpa using find_some h

theorem infoSlot_some {t : Table} {pid : Int} {p : Slot} (h : infoSlot pid t = some p) :
    (t p).pid = pid ∧ (t p).state ≠ .unused := by
  simpa using find_some h

section Fields

variable {t : Table} {i p : Slot}

@[simp] theorem forkCopy_state (i : Slot) (c np : Proc) :
    (forkCopy i c np).state = np.state := by
  unfold forkCopy
  dsimp only
  split <;> rfl

@[simp] theorem forkCopy_pid (i : Slot) (c np : Proc) : (forkCopy i c np).pid = np.pid := by
  unfold forkCopy
  dsimp only
  split <;> rfl

@[simp] theorem forkCopy_parent (i : Slot) (c np : Proc) :
    (forkCopy i c np).parent = some i := by
  unfold forkCopy
  dsimp only
  split <;> rfl

@[simp] theorem forkCopy_welcomeAddr (i : Slot) (c np : Proc) :
    (forkCopy i c np).welcomeAddr = np.welcomeAddr := by
  unfold forkCopy
  dsimp only
  split <;> rfl

@[simp] theorem forkCopy_returnAddr (i : Slot) (c np : Proc) :
    (forkCopy i c np).returnAddr = c.eip := by
  unfold forkCopy
  dsimp only
  split <;> rfl

theorem exit_self : (exit i t i).state = .zombie := by simp [exit]

theorem exit_state (h : p ≠ i) : (exit i t p).state = (t p).state := by
  unfold exit
  rw [if_neg h]
  split <;> rfl

@[simp] theorem exit_pid : (exit i t p).pid = (t p).pid := by
  unfold exit
  split <;> split <;> rfl

@[simp] theorem exit_parent :
    (exit i t p).parent = if (t p).parent = some i then some initproc else (t p).parent := by
  unfold exit
  split <;> split <;> rfl

@[simp] theorem exit_eip : (exit i t p).eip = (t p).eip := by
  unfold exit
  split <;> split <;> rfl

@[simp] theorem exit_welcomeAddr : (exit i t p).welcomeAddr = (t p).welcomeAddr := by
  unfold exit
  split <;> split <;> rfl

@[simp] theorem exit_returnAddr : (exit i t p).returnAddr = (t p).returnAddr := by
  unfold exit
  split <;> split <;> rfl

end Fields

/-! ## Who is filling in which slot -/

/-- A process at `w` has slot `np` for a child. -/
def Path.Holds (w : Path) (np : Slot) : Prop := w = .allocated np ∨ w = .copied np

/-- A slot that is being filled in is EMBRYO and has one owner; a process in a system call is
    published. -/
structure Shape (s : State) : Prop where
  embryo : ∀ i np, (s.path i).Holds np → (s.ptable np).state = .embryo
  one : ∀ i j np, (s.path i).Holds np → (s.path j).Holds np → i = j
  busy : ∀ i, s.path i ≠ .user → Live (s.ptable i).state

section Shape

variable {s s' : State} {i np : Slot} {p : Proc} {w : Path} {e : Event}

theorem Live.of_running {st : ProcState} (h : st = .running) : Live st := .inr (.inr h)

@[simp] theorem not_holds_user : ¬Path.Holds .user np := by simp [Path.Holds]

@[simp] theorem not_holds_waiting : ¬Path.Holds .waiting np := by simp [Path.Holds]

theorem Shape.not_held (h : Shape s) (hst : (s.ptable np).state ≠ .embryo) (i : Slot) :
    ¬(s.path i).Holds np := fun hh => hst (h.embryo i np hh)

theorem Shape.idle (h : Shape s) (hst : ¬Live (s.ptable i).state) : s.path i = .user := by
  by_contra hne
  exact hst (h.busy i hne)

/-- A slot is overwritten. -/
theorem Shape.set (h : Shape s) (hheld : ∀ j, (s.path j).Holds i → p.state = .embryo)
    (hbusy : s.path i ≠ .user → Live p.state) : Shape (s.set i p) where
  embryo j np hh := by
    by_cases hnp : np = i
    · subst hnp
      simpa using hheld j hh
    · simpa [hnp] using h.embryo j np hh
  one := h.one
  busy j hj := by
    by_cases hji : j = i
    · subst hji
      simpa using hbusy hj
    · simpa [hji] using h.busy j hj

theorem Shape.set_same (h : Shape s) (hst : p.state = (s.ptable i).state) :
    Shape (s.set i p) :=
  h.set (fun j hh => hst ▸ h.embryo j i hh) fun hne => hst ▸ h.busy i hne

/-- A process moves on; `hnew` speaks of the slot that it has then. -/
theorem Shape.go (h : Shape s) (hlive : Live (s.ptable i).state)
    (hnew : ∀ np, w.Holds np → (s.ptable np).state = .embryo ∧
      ∀ j, (s.path j).Holds np → j = i) : Shape (s.go i w) where
  embryo j np hh := by
    by_cases hji : j = i
    · subst hji
      exact (hnew np (by simpa using hh)).1
    · exact h.embryo j np (by simpa [hji] using hh)
  one j k np hj hk := by
    by_cases hji : j = i <;> by_cases hki : k = i
    · rw [hji, hki]
    · subst hji
      exact ((hnew np (by simpa using hj)).2 k (by simpa [hki] using hk)).symm
    · subst hki
      exact (hnew np (by simpa using hk)).2 j (by simpa [hji] using hj)
    · exact h.one j k np (by simpa [hji] using hj) (by simpa [hki] using hk)
  busy j hj := by
    by_cases hji : j = i
    · subst hji
      exact hlive
    · exact h.busy j (by simpa [hji] using hj)

theorem not_live_unused {st : ProcState} (h : st = .unused) : ¬Live st := by
  simp [Live, h]

theorem not_live_embryo {st : ProcState} (h : st = .embryo) : ¬Live st := by
  simp [Live, h]

theorem not_live_zombie {st : ProcState} (h : st = .zombie) : ¬Live st := by
  simp [Live, h]

/-- A process that has slot `np` gives it up. -/
theorem Shape.release (h : Shape s) (hlive : Live (s.ptable i).state)
    (hp : s.path i = .allocated np ∨ s.path i = .copied np) :
    Shape ((s.set np p).go i .user) := by
  have hgo : Shape (s.go i .user) := h.go hlive (by simp)
  refine hgo.set (fun j hh => ?_) fun hne => ?_
  · exfalso
    by_cases hji : j = i
    · subst hji
      simp at hh
    · exact hji (h.one j i np (by simpa [hji] using hh) hp)
  · exfalso
    by_cases hni : np = i
    · subst hni
      simp at hne
    · have := h.busy np (by simpa [hni] using hne)
      exact not_live_embryo (h.embryo i np hp) this

/-- Every event keeps the shape. -/
theorem Shape.step (h : Shape s) (hs : Step s e s') : Shape s' := by
  cases hs with
  | @reschedule i st hold hnew =>
    refine h.set (fun j hh => ?_) fun _ => hnew
    exact absurd hold (not_live_embryo (h.embryo j i hh))
  | kill => exact h.set_same rfl
  | @forkAlloc i np a hready hpath hfree =>
    have hun := unusedSlot_some hfree
    have hni : np ≠ i := by
      rintro rfl
      rw [hready.1] at hun
      cases hun
    have h1 : Shape (s.set i (s.trapped i a)) := h.set_same rfl
    have h2 : Shape ((s.set i (s.trapped i a)).set np (allocproc s.nextpid (s.ptable np))) := by
      refine h1.set (fun _ _ => rfl) fun hne => ?_
      exact absurd (h.idle (not_live_unused hun)) hne
    have h3 := h2.go (i := i) (w := .allocated np)
      (by simpa [hni.symm, State.trapped] using Live.of_running hready.1) (by
        intro np' hh
        obtain rfl : np' = np := by simpa [Path.Holds, eq_comm] using hh
        refine ⟨by simp [allocproc], fun j hj => ?_⟩
        exact absurd hj (h.not_held (by simp [hun]) j))
    exact ⟨h3.embryo, h3.one, h3.busy⟩
  | forkNone => exact h.set_same rfl
  | forkFail hrun hpath => exact h.release (.of_running hrun) (.inl hpath)
  | @forkCopy i np hrun hpath =>
    have hemb := h.embryo i np (.inl hpath)
    have hni : i ≠ np := by
      rintro rfl
      rw [hrun] at hemb
      cases hemb
    have h1 : Shape (s.set np (forkCopy i (s.ptable i) (s.ptable np))) := h.set_same (by simp)
    refine h1.go (by simpa [hni] using Live.of_running hrun) fun np' hh => ?_
    obtain rfl : np' = np := by simpa [Path.Holds, eq_comm] using hh
    exact ⟨by simpa using hemb, fun j hj => h.one j i np' hj (.inl hpath)⟩
  | forkPublish hrun hpath => exact h.release (.of_running hrun) (.inr hpath)
  | @exit i hrun hpath hne =>
    refine ⟨fun j np hh => ?_, h.one, fun j hj => ?_⟩
    · have hemb := h.embryo j np hh
      have hni : np ≠ i := by
        rintro rfl
        rw [hrun] at hemb
        cases hemb
      exact (exit_state hni).trans hemb
    · have hji : j ≠ i := by
        rintro rfl
        exact hj hpath
      show Live (exit i s.ptable j).state
      rw [exit_state hji]
      exact h.busy j hj
  | @waitCall i a hready hpath =>
    have h1 : Shape (s.set i (s.trapped i a)) := h.set_same rfl
    exact h1.go (by simpa [State.trapped] using Live.of_running hready.1) (by simp)
  | @waitReap i p hrun hpath hz =>
    obtain ⟨-, hz⟩ := zombieChild_some hz
    have hpi : i ≠ p := by
      rintro rfl
      rw [hrun] at hz
      cases hz
    have h1 : Shape (s.set p (reap (s.ptable p))) := by
      refine h.set (fun j hh => ?_) fun hne => ?_
      · exact absurd hh (h.not_held (by simp [hz]) j)
      · exact absurd (h.idle (not_live_zombie hz)) hne
    exact h1.go (by simpa [hpi] using Live.of_running hrun) (by simp)
  | waitNone hrun => exact h.go (.of_running hrun) (by simp)
  | @waitSleep i hrun =>
    refine h.set (fun j hh => ?_) fun _ => .inl rfl
    exact absurd hh (h.not_held (by simp [hrun]) j)
  | exec => exact h.set_same rfl
  | welcomeFunction => exact h.set_same rfl
  | welcomeDone =>
    refine h.set_same ?_
    unfold sysWelcomeDone
    split <;> rfl

theorem Shape.start (hs : Booted s) : Shape s where
  embryo i np hh := by simp [hs.path] at hh
  one i j np hh := by simp [hs.path] at hh
  busy i hi := absurd (hs.path i) hi

end Shape

end OsCodes.Ptable
