/-
  `getMaxPid` beside `getProcInfo`.

  `MaxPid` looks at the pids of all slots, `ProcInfo` at those of slots in use.  `wait` clears the
  pid of the slot that it frees; a `fork` that fails after `allocproc` leaves it.  The record here
  keeps the slots that such a `fork` has left behind.

  `Pids` is the invariant that ties the pids of all slots to `nextpid` and to the record.  From it
  follow two equivalences, which `maxPid_law` states in every state of a run: `MaxPid` is right
  where no slot that a failed `fork` has left has the largest pid (`largest_iff`), and `ProcInfo`
  finds the process with a pid in use where it is not that of a child whose parent is still to be
  copied (`answers_iff`).  `maxPid_stale` is the run in which the largest pid is the one that a
  failed `fork` has left.
-/
import OsCodes.Xv6.ProcInfo

namespace OsCodes.ProcInfo

open Ptable

/-! ## The code -/

/-- The loop of `MaxPid` over some slots. -/
def maxPidFrom (t : Table) : List Slot → Int → Int
  | [], pid => pid
  | p :: rest, pid => maxPidFrom t rest (if (t p).pid > pid then (t p).pid else pid)

/-- Over all slots of the table, those that are `UNUSED` too. -/
def maxPid (t : Table) : Int := maxPidFrom t (List.finRange NPROC) 0

/-- What the loop comes to: no pid that it has seen is larger, and it has seen this one. -/
theorem maxPidFrom_spec (t : Table) : ∀ (l : List Slot) (pid : Int),
    pid ≤ maxPidFrom t l pid ∧ (∀ p ∈ l, (t p).pid ≤ maxPidFrom t l pid) ∧
      (maxPidFrom t l pid = pid ∨ ∃ p ∈ l, (t p).pid = maxPidFrom t l pid) := by
  intro l
  induction l with
  | nil => exact fun pid => ⟨Int.le_refl _, fun p hp => absurd hp List.not_mem_nil, .inl rfl⟩
  | cons p l ih =>
    intro pid
    have hnext : ∃ m, maxPidFrom t (p :: l) pid = maxPidFrom t l m ∧ pid ≤ m ∧ (t p).pid ≤ m ∧
        (m = pid ∨ m = (t p).pid) := by
      refine ⟨_, rfl, ?_⟩
      split
      · exact ⟨by omega, by omega, .inr rfl⟩
      · exact ⟨by omega, by omega, .inl rfl⟩
    obtain ⟨m, hm, hpid, hp, hor⟩ := hnext
    obtain ⟨hle, hall, hin⟩ := ih m
    rw [hm]
    refine ⟨by omega, fun q hq => ?_, ?_⟩
    · rcases List.mem_cons.mp hq with rfl | hq
      · omega
      · exact hall q hq
    · rcases hin with heq | ⟨q, hq, heq⟩
      · rw [heq]
        exact hor.imp_right fun hp => ⟨p, List.mem_cons_self, hp.symm⟩
      · exact .inr ⟨q, List.mem_cons_of_mem _ hq, heq⟩

theorem pid_le_maxPid (t : Table) (p : Slot) : (t p).pid ≤ maxPid t :=
  (maxPidFrom_spec t _ 0).2.1 p (List.mem_finRange p)

/-- Where some pid is positive, the result is the pid of a slot. -/
theorem maxPid_mem {t : Table} {p : Slot} (h : 0 < (t p).pid) : ∃ q, (t q).pid = maxPid t := by
  rcases (maxPidFrom_spec t (List.finRange NPROC) 0).2.2 with hzero | ⟨q, -, hq⟩
  · have hle := pid_le_maxPid t p
    rw [maxPid, hzero] at hle
    omega
  · exact ⟨q, hq⟩

/-! ## Runs -/

/-- The slots that a `fork` has taken and given up since they were last in use, after an event
    in `s`. -/
def leftAfter (s : State) (left : Slot → Bool) : Event → Slot → Bool
  | .forkAlloc _ _ =>
    match unusedSlot s.ptable with
    | none => left
    | some np => Function.update left np false
  | .forkFail i =>
    match s.path i with
    | .allocated np => Function.update left np true
    | _ => left
  | _ => left

/-- The kernel from boot, with no pid in the slots that `userinit` has not used, and its
    records. -/
def withLeft : Lts ((State × Record) × (Slot → Bool)) Event :=
  Lts.withGhost
    { start := fun x => recorded.start x ∧ ∀ p, p ≠ initproc → (x.1.ptable p).pid = 0
      step := recorded.step }
    (fun _ => false) fun x left e => leftAfter x.1 left e

/-- `MaxPid` returns the largest pid of a slot in use. -/
def Largest (s : State) : Prop :=
  (∃ p, (s.ptable p).state ≠ .unused ∧ (s.ptable p).pid = maxPid s.ptable) ∧
    ∀ p, (s.ptable p).state ≠ .unused → (s.ptable p).pid ≤ maxPid s.ptable

/-- `ProcInfo` finds the process with that pid and returns 0. -/
def Answers (s : State) : Prop := ∃ info, procInfo (maxPid s.ptable) s.ptable = .ok (some info)

/-- A process in use has a larger pid. -/
def Below (s : State) (p : Slot) : Prop :=
  ∃ q, (s.ptable q).state ≠ .unused ∧ (s.ptable p).pid < (s.ptable q).pid

/-- The pids of all slots, in use or not. -/
structure Pids (s : State) (left : Slot → Bool) : Prop where
  used : ∀ p, (s.ptable p).state ≠ .unused → 0 < (s.ptable p).pid ∧ left p = false
  free : ∀ p, (s.ptable p).state = .unused → left p = false → (s.ptable p).pid = 0
  left : ∀ p, left p = true → 0 < (s.ptable p).pid
  below : ∀ p, (s.ptable p).pid < s.nextpid
  inj : ∀ p q, (s.ptable p).pid = (s.ptable q).pid → (s.ptable p).pid ≠ 0 → p = q

namespace Pids

variable {s s' : State} {left : Slot → Bool} {i np : Slot}

/-- Every slot keeps its pid, and stays in use or not. -/
theorem same (h : Pids s left) (hpid : ∀ p, (s'.ptable p).pid = (s.ptable p).pid)
    (hunused : ∀ p, (s'.ptable p).state = .unused ↔ (s.ptable p).state = .unused)
    (hnext : s'.nextpid = s.nextpid) : Pids s' left where
  used p hp := by
    rw [hpid]
    exact h.used p fun hun => hp ((hunused p).mpr hun)
  free p hp hl := by
    rw [hpid]
    exact h.free p ((hunused p).mp hp) hl
  left p hl := by
    rw [hpid]
    exact h.left p hl
  below p := by
    rw [hpid, hnext]
    exact h.below p
  inj p q := by
    rw [hpid, hpid]
    exact h.inj p q

/-- One slot is overwritten but for its pid. -/
theorem set {p : Proc} (h : Pids s left) (hpid : p.pid = (s.ptable i).pid)
    (hunused : p.state = .unused ↔ (s.ptable i).state = .unused) : Pids (s.set i p) left := by
  refine h.same (fun q => ?_) (fun q => ?_) rfl
  · by_cases hqi : q = i
    · simp [hqi, hpid]
    · simp [hqi]
  · by_cases hqi : q = i
    · simp [hqi, hunused]
    · simp [hqi]

theorem go {w : Path} (h : Pids s left) : Pids (s.go i w) left :=
  h.same (fun _ => rfl) (fun _ => .rfl) rfl

/-- One slot is overwritten. -/
theorem slot {left' : Slot → Bool} (np : Slot) (h : Pids s left) (hnext : s.nextpid ≤ s'.nextpid)
    (hpid : ∀ p, p ≠ np → (s'.ptable p).pid = (s.ptable p).pid)
    (hstate : ∀ p, p ≠ np → (s'.ptable p).state = (s.ptable p).state)
    (hleft : ∀ p, p ≠ np → left' p = left p)
    (hused : (s'.ptable np).state ≠ .unused → 0 < (s'.ptable np).pid ∧ left' np = false)
    (hfree : (s'.ptable np).state = .unused → left' np = false → (s'.ptable np).pid = 0)
    (hkept : left' np = true → 0 < (s'.ptable np).pid)
    (hbelow : (s'.ptable np).pid < s'.nextpid)
    (hinj : ∀ p, p ≠ np → (s.ptable p).pid = (s'.ptable np).pid → (s.ptable p).pid = 0) :
    Pids s' left' where
  used p hp := by
    by_cases hpn : p = np
    · rw [hpn] at hp ⊢
      exact hused hp
    · rw [hstate p hpn] at hp
      rw [hpid p hpn, hleft p hpn]
      exact h.used p hp
  free p hp hl := by
    by_cases hpn : p = np
    · rw [hpn] at hp hl ⊢
      exact hfree hp hl
    · rw [hstate p hpn] at hp
      rw [hleft p hpn] at hl
      rw [hpid p hpn]
      exact h.free p hp hl
  left p hl := by
    by_cases hpn : p = np
    · rw [hpn] at hl ⊢
      exact hkept hl
    · rw [hleft p hpn] at hl
      rw [hpid p hpn]
      exact h.left p hl
  below p := by
    by_cases hpn : p = np
    · rw [hpn]
      exact hbelow
    · have hlt := h.below p
      rw [hpid p hpn]
      omega
  inj p q hpq hne := by
    by_cases hpn : p = np <;> by_cases hqn : q = np
    · rw [hpn, hqn]
    · rw [hpn, hpid q hqn] at hpq
      rw [hpn, hpq] at hne
      exact absurd (hinj q hqn hpq.symm) hne
    · rw [hqn, hpid p hpn] at hpq
      rw [hpid p hpn] at hne
      exact absurd (hinj p hpn hpq) hne
    · rw [hpid p hpn, hpid q hqn] at hpq
      rw [hpid p hpn] at hne
      exact h.inj p q hpq hne

/-- `allocproc` takes a slot, and the next pid. -/
theorem forkAlloc {a : Nat} (h : Pids s left) (hi : (s.ptable i).state = .running)
    (hun : (s.ptable np).state = .unused) :
    Pids { ((s.set i (s.trapped i a)).set np (allocproc s.nextpid (s.ptable np))).go i
      (.allocated np) with nextpid := s.nextpid + 1 } (Function.update left np false) := by
  have hni : i ≠ np := by
    rintro rfl
    rw [hi] at hun
    cases hun
  have hpos := (h.used i (by simp [hi])).1
  have hlt := h.below i
  refine h.slot np ?_ (fun p hp => ?_) (fun p hp => ?_) (fun p hp => ?_) (fun _ => ?_)
    (fun hfree _ => ?_) (fun hl => ?_) ?_ fun p _ heq => ?_
  · show s.nextpid ≤ s.nextpid + 1
    omega
  · by_cases hpi : p = i
    · simp [hpi, hni, State.trapped]
    · simp [hp, hpi]
  · by_cases hpi : p = i
    · simp [hpi, hni, State.trapped]
    · simp [hp, hpi]
  · rw [Function.update_of_ne hp]
  · simp only [State.go_ptable, State.set_ptable, Function.update_self, allocproc, and_true]
    omega
  · simp [allocproc] at hfree
  · simp at hl
  · simp only [State.go_ptable, State.set_ptable, Function.update_self, allocproc]
    omega
  · have hbelow := h.below p
    simp only [State.go_ptable, State.set_ptable, Function.update_self, allocproc] at heq
    omega

/-- A slot is given up. -/
theorem clear {q : Proc} {left' : Slot → Bool} (h : Pids s left)
    (hq : q.state = .unused) (hleft : ∀ p, p ≠ np → left' p = left p)
    (hpid : q.pid = 0 ∧ left' np = false ∨ q.pid = (s.ptable np).pid ∧ left' np = true ∧
      0 < q.pid) (hnext : 0 < s.nextpid) : Pids ((s.set np q).go i .user) left' := by
  have hq' : ((s.set np q).go i .user).ptable np = q := Function.update_self ..
  refine h.slot np (Int.le_refl _) (fun p hp => ?_) (fun p hp => ?_) hleft (fun hne => ?_)
    (fun _ hl => ?_) (fun hl => ?_) ?_ fun p hp heq => ?_
  · simp [hp]
  · simp [hp]
  · rw [hq'] at hne
    exact absurd hq hne
  · rw [hq']
    rcases hpid with ⟨hzero, -⟩ | ⟨-, hl', -⟩
    · exact hzero
    · rw [hl] at hl'
      cases hl'
  · rw [hq']
    rcases hpid with ⟨-, hl'⟩ | ⟨-, -, hpos⟩
    · rw [hl] at hl'
      cases hl'
    · exact hpos
  · rw [hq']
    show q.pid < s.nextpid
    rcases hpid with ⟨hzero, -⟩ | ⟨hsame, -⟩
    · omega
    · have hlt := h.below np
      omega
  · rw [hq'] at heq
    rcases hpid with ⟨hzero, -⟩ | ⟨hsame, -⟩
    · omega
    · by_contra hne
      exact hp (h.inj p np (by omega) hne)

/-- Every event keeps the invariant. -/
theorem step {e : Event} (h : Pids s left) (hshape : Shape s) (hs : Step s e s') :
    Pids s' (leftAfter s left e) := by
  cases hs with
  | reschedule hold hnew =>
    exact h.set rfl (iff_of_false (Live.ne_unused hnew) (Live.ne_unused hold))
  | kill => exact h.set rfl .rfl
  | forkAlloc hready hpath hfree =>
    simp only [leftAfter, hfree]
    exact h.forkAlloc hready.1 (unusedSlot_some hfree)
  | forkNone hready hpath hnone =>
    simp only [leftAfter, hnone]
    exact h.set rfl .rfl
  | @forkFail i np hrun hpath =>
    have hemb := hshape.embryo i np (.inl hpath)
    have hpos := (h.used np (by simp [hemb])).1
    simp only [leftAfter, hpath]
    exact h.clear rfl (fun p hp => Function.update_of_ne hp _ _)
      (.inr ⟨rfl, Function.update_self .., hpos⟩) (Int.lt_trans hpos (h.below np))
  | forkCopy hrun hpath => exact (h.set (by simp) (by simp)).go
  | @forkPublish i np hrun hpath =>
    have hemb := hshape.embryo i np (.inr hpath)
    have hset : Pids (s.set np { s.ptable np with state := .runnable }) left :=
      h.set rfl (by simp [hemb])
    exact hset.go
  | @exit i hrun hpath hne =>
    refine h.same (fun p => exit_pid) (fun p => ?_) rfl
    by_cases hpi : p = i
    · simp [hpi, hrun, exit_self]
    · simp [exit_state hpi]
  | @waitCall i a =>
    have hset : Pids (s.set i (s.trapped i a)) left := h.set rfl .rfl
    exact hset.go
  | @waitReap i p hrun hpath hz =>
    obtain ⟨-, hz⟩ := zombieChild_some hz
    obtain ⟨hpos, hl⟩ := h.used p (by simp [hz])
    exact h.clear rfl (fun _ _ => rfl) (.inl ⟨rfl, hl⟩) (Int.lt_trans hpos (h.below p))
  | waitNone => exact h.go
  | waitSleep hrun => exact h.set rfl (by simp [hrun])
  | exec => exact h.set rfl .rfl
  | welcomeFunction => exact h.set rfl .rfl
  | @welcomeDone i a =>
    have hsame : (sysWelcomeDone (s.trapped i a)).2.pid = (s.ptable i).pid ∧
        (sysWelcomeDone (s.trapped i a)).2.state = (s.ptable i).state := by
      unfold sysWelcomeDone
      split <;> exact ⟨rfl, rfl⟩
    exact h.set hsame.1 (by rw [hsame.2])

end Pids

section Law

variable {x : (State × Record) × (Slot → Bool)}

theorem withLeft_recorded (hr : withLeft.Reach x) : recorded.Reach x.1 := by
  induction hr with
  | start h => exact .start h.1.1
  | step _ hst ih => exact .step ih hst.1

theorem pids_reach (hr : withLeft.Reach x) : Pids x.1.1 x.2 := by
  induction hr with
  | @start x h =>
    obtain ⟨⟨⟨hb, -⟩, hzero⟩, hleft⟩ := h
    have hb : Booted x.1.1 := hb
    have hused : ∀ p, (x.1.1.ptable p).state ≠ .unused → p = initproc := by
      intro p hp
      by_contra hne
      exact hp (hb.rest p hne)
    have hne : ∀ p, (x.1.1.ptable p).pid ≠ 0 → p = initproc := by
      intro p hp
      by_contra hne
      exact hp (hzero p hne)
    rw [hleft]
    refine ⟨fun p hp => ?_, fun p hp _ => ?_, fun p hl => (by cases hl), fun p => ?_,
      fun p q hpq hp => ?_⟩
    · rw [hused p hp, hb.pid]
      exact ⟨by decide, rfl⟩
    · refine hzero p ?_
      rintro rfl
      rw [hb.init] at hp
      cases hp
    · rw [hb.nextpid]
      by_cases hp : p = initproc
      · rw [hp, hb.pid]
        decide
      · rw [hzero p hp]
        decide
    · rw [hne p hp, hne q (by rwa [← hpq])]
  | @step x x' e hr hst ih =>
    obtain ⟨⟨hs, -⟩, hleft⟩ := hst
    rw [hleft]
    exact ih.step (inv_reach (withLeft_recorded hr)).shape hs

/-- The pid of a process in use is positive, so that `MaxPid` returns the pid of a slot. -/
theorem maxPid_slot (hr : withLeft.Reach x) : ∃ p, (x.1.1.ptable p).pid = maxPid x.1.1.ptable := by
  have hinit := (inv_reach (withLeft_recorded hr)).init.1
  exact maxPid_mem ((pids_reach hr).used initproc (Live.ne_unused hinit)).1

/-- **`MaxPid`** is right exactly when no slot that a failed `fork` has left has the largest
    pid. -/
theorem largest_iff (hr : withLeft.Reach x) :
    Largest x.1.1 ↔ ∀ p, x.2 p = true → Below x.1.1 p := by
  have hp := pids_reach hr
  constructor
  · rintro ⟨⟨q, hq, hmax⟩, -⟩ p hl
    have hle := pid_le_maxPid x.1.1.ptable p
    have hpos := hp.left p hl
    refine ⟨q, hq, ?_⟩
    by_contra hge
    have hpq : p = q := hp.inj p q (by omega) (by omega)
    have hfalse := (hp.used q hq).2
    rw [← hpq, hl] at hfalse
    cases hfalse
  · intro h
    refine ⟨?_, fun p _ => pid_le_maxPid _ p⟩
    obtain ⟨p, hmax⟩ := maxPid_slot hr
    by_cases hun : (x.1.1.ptable p).state = .unused
    · exfalso
      cases hl : x.2 p with
      | true =>
        obtain ⟨q, -, hlt⟩ := h p hl
        have hle := pid_le_maxPid x.1.1.ptable q
        omega
      | false =>
        have hinit := (inv_reach (withLeft_recorded hr)).init.1
        have hpos := (hp.used initproc (Live.ne_unused hinit)).1
        have hle := pid_le_maxPid x.1.1.ptable initproc
        rw [hp.free p hun hl] at hmax
        omega
    · exact ⟨p, hun, hmax⟩

/-- **`ProcInfo`** answers for a pid in use exactly when it is not that of a child whose parent
    `fork` has still to copy. -/
theorem answers_iff (hr : withLeft.Reach x) (h : Largest x.1.1) :
    Answers x.1.1 ↔ ∀ i p, x.1.1.path i = .allocated p → Below x.1.1 p := by
  have hinv := inv_reach (withLeft_recorded hr)
  obtain ⟨⟨q, hq, hmax⟩, -⟩ := h
  have hfound := hinv.infoSlot_eq hq
  rw [hmax] at hfound
  constructor
  · rintro ⟨info, hinfo⟩ i p hpath
    have hemb := hinv.shape.embryo i p (.inl hpath)
    refine ⟨q, hq, ?_⟩
    by_contra hge
    have hle := pid_le_maxPid x.1.1.ptable p
    obtain rfl : p = q := hinv.inj p q (by simp [hemb]) hq (by omega)
    -- the child has no parent yet
    have hone : (x.1.1.ptable p).pid ≠ 1 := by
      intro hone
      have hp0 := hinv.inj p initproc hq (Live.ne_unused hinv.init.1)
        (hone.trans hinv.init.2.symm)
      exact Live.ne_embryo hinv.init.1 (hp0 ▸ hemb)
    rw [hmax] at hone
    rw [procInfo, hfound] at hinfo
    simp only [if_neg hone, hinv.orphan p (.inr ⟨i, hpath⟩)] at hinfo
    cases hinfo
  · intro hbelow
    have hlaw : Law x.1.1 x.1.2 (maxPid x.1.1.ptable) := by
      refine hinv.law_iff _ |>.mpr fun i p hpath hpid => ?_
      obtain ⟨r, -, hlt⟩ := hbelow i p hpath
      have hle := pid_le_maxPid x.1.1.ptable r
      omega
    by_cases hone : maxPid x.1.1.ptable = 1
    · refine ⟨⟨0, (x.1.1.ptable q).sz, (x.1.1.ptable q).inctxt⟩, ?_⟩
      rw [procInfo, hfound]
      simp only [if_pos hone]
    · obtain ⟨-, info, -, -, hinfo, -⟩ := hlaw q hfound hone
      exact ⟨info, hinfo⟩

/-- **`getMaxPid`.**  In every state that a run leads to, `MaxPid` returns the largest pid in use
    exactly when every slot that a failed `fork` has left has a smaller pid than some process;
    and `ProcInfo` then answers for that pid exactly when every slot that a `fork` has taken and
    not yet filled in has. -/
theorem maxPid_law (hr : withLeft.Reach x) :
    (Largest x.1.1 ↔ ∀ p, x.2 p = true → Below x.1.1 p) ∧
    (Largest x.1.1 ∧ Answers x.1.1 ↔ (∀ p, x.2 p = true → Below x.1.1 p) ∧
      ∀ i p, x.1.1.path i = .allocated p → Below x.1.1 p) := by
  refine ⟨largest_iff hr, ?_⟩
  rw [← largest_iff hr]
  exact and_congr_right fun h => answers_iff hr h

end Law

theorem withLeft_step {s s' : State} {g : Record} {left : Slot → Bool} {e : Event}
    (h : withLeft.Reach ((s, g), left)) (hs : Step s e s') :
    withLeft.Reach ((s', g.after s e), leftAfter s left e) := .step h ⟨⟨hs, rfl⟩, rfl⟩

/-- The first process has forked at 16 and failed. -/
theorem failed_fork : ∃ x, withLeft.Reach x ∧ x.2 1 = true ∧ (x.1.1.ptable 1).pid = 2 ∧
    ∀ p, (x.1.1.ptable p).state ≠ .unused → (x.1.1.ptable p).pid = 1 := by
  have h0 : withLeft.Reach ((boot, ⟨fun _ => 0, fun _ => false⟩), fun _ => false) :=
    .start ⟨⟨⟨boot_booted, rfl⟩, fun p hp => if_neg hp⟩, rfl⟩
  have h1 := withLeft_step h0 (@Step.reschedule _ 0 .running (.inr (.inl rfl)) (.inr (.inr rfl)))
  have h2 := withLeft_step h1 (@Step.forkAlloc _ 0 1 16 ⟨rfl, rfl⟩ rfl (by decide))
  have h3 := withLeft_step h2 (@Step.forkFail _ 0 1 rfl rfl)
  refine ⟨_, h3, rfl, rfl, fun p hp => ?_⟩
  by_cases hp1 : p = 1
  · rw [hp1] at hp
    exact absurd rfl hp
  · by_cases hp0 : p = 0
    · rw [hp0]
      rfl
    · simp [hp1, hp0, boot, initproc] at hp

theorem maxPid_law_failed : ∃ x, withLeft.Reach x ∧ x.2 1 = true ∧
    (Largest x.1.1 ↔ ∀ p, x.2 p = true → Below x.1.1 p) := by
  obtain ⟨x, hr, hleft, -⟩ := failed_fork
  exact ⟨x, hr, hleft, (maxPid_law hr).1⟩

/-- **A `fork` that failed** leaves the largest pid in a slot that is not in use. -/
theorem maxPid_stale : ¬ ∀ x, withLeft.Reach x → Largest x.1.1 ∧ Answers x.1.1 := by
  intro h
  obtain ⟨x, hr, -, hpid, hused⟩ := failed_fork
  obtain ⟨⟨⟨p, hp, hmax⟩, -⟩, -⟩ := h x hr
  have hle := pid_le_maxPid x.1.1.ptable 1
  rw [hused p hp] at hmax
  omega

end OsCodes.ProcInfo
