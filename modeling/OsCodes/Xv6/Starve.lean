/-
  Who is starved by the weighted round robin of xv6-public.

  The threshold goes through 1000, 990, .., 0 and begins again, so that a process at or above 0
  is eligible at the latest in the pass with threshold 0.  `passesLeft` counts the ends of passes
  until then: every pass that ends without a dispatch of the process makes it smaller.  No
  threshold is below 0, and `sys_setprio` takes any `int`.

  `dispatched_iff` is an equivalence for a process that is RUNNABLE whenever control is in the
  scheduler: a run of 101 passes dispatches it if and only if its priority is not negative.  One
  direction is the measure above, with 101 passes as the bound; the other looks at what a dispatch
  needs (`prio_of_dispatch`).  `negative_starves` is such a run in which the only process, with
  priority -1, is never picked.
-/
import OsCodes.Xv6.Sched

namespace OsCodes.Sched

open Ptable

/-! ## Runs -/

/-- `scheduler` from its first pass, over any table, with anything happening in between. -/
def anyTable : Lts State (Table → Table) where
  start s := s.prioCheck = 1000 ∧ s.p = 0
  step s f s' := s' = step s f

abbrev Trace := List (State × (Table → Table) × State)

/-- The passes that end in the run. -/
def passes (trs : Trace) : Nat := trs.countP fun tr => tr.1.p = NPROC

/-- The processes that the run switches to, in order. -/
def dispatches (trs : Trace) : List Slot := trs.filterMap fun tr => dispatched tr.1

/-- Process `i` is RUNNABLE whenever control is in the scheduler, and its priority changes only
    while it runs. -/
structure Waiting (i : Slot) (trs : Trace) : Prop where
  ready : ∀ tr ∈ trs, (tr.1.ptable i).state = .runnable
  prio : ∀ tr ∈ trs, dispatched tr.1 ≠ some i → (tr.2.2.ptable i).prio = (tr.1.ptable i).prio

/-! ## The threshold -/

/-- The threshold is one of 1000, 990, .., 0. -/
structure Phase (s : State) : Prop where
  check : ∃ c : Nat, c ≤ 100 ∧ s.prioCheck = 10 * c
  p_le : s.p ≤ NPROC

theorem Phase.step {s : State} (h : Phase s) (f : Table → Table) : Phase (Sched.step s f) := by
  obtain ⟨c, hc, hcheck⟩ := h.check
  rcases step_cases s f h.p_le with ⟨j, hj, -, -, hs⟩ | ⟨j, hj, -, -, hs⟩ | ⟨-, -, hs⟩
  · rw [hs]
    exact ⟨⟨c, hc, hcheck⟩, hj ▸ j.2⟩
  · rw [hs]
    exact ⟨⟨c, hc, hcheck⟩, hj ▸ j.2⟩
  · rw [hs]
    refine ⟨?_, Nat.zero_le _⟩
    by_cases hlow : s.prioCheck - 10 < 0
    · exact ⟨100, Nat.le_refl _, if_pos hlow⟩
    · refine ⟨c - 1, by omega, (if_neg hlow).trans ?_⟩
      omega

theorem phase_reach {s : State} (h : anyTable.Reach s) : Phase s := by
  refine h.invariant ?_ ?_
  · rintro s ⟨hcheck, hp⟩
    exact ⟨⟨100, Nat.le_refl _, hcheck⟩, by rw [hp]; exact Nat.zero_le _⟩
  · rintro s f s' hs rfl
    exact hs.step f

/-- The ends of passes before slot `i` is looked at with threshold 0. -/
def passesLeft (i : Slot) (s : State) : Nat :=
  if s.prioCheck = 0 ∧ i.1 < s.p then 101 else (s.prioCheck / 10).toNat

/-- A process at or above the threshold is switched to when its slot is looked at. -/
theorem picks_of_le {c : Int} {p : Proc} (hrun : p.state = .runnable) (h : c ≤ p.prio) :
    picks c p = true := by
  simp only [picks, hrun, ne_eq, not_true_eq_false, decide_false, Bool.false_or, Bool.not_eq_true',
    decide_eq_false_iff_not]
  omega

/-- **One step without a dispatch** of a process at or above 0. -/
theorem passesLeft_step {i : Slot} {s : State} (h : Phase s)
    (hrun : (s.ptable i).state = .runnable) (hprio : 0 ≤ (s.ptable i).prio)
    (hno : dispatched s ≠ some i) (f : Table → Table) :
    passesLeft i (step s f) + (if s.p = NPROC then 1 else 0) = passesLeft i s := by
  obtain ⟨c, hc, hcheck⟩ := h.check
  -- with threshold 0 the slot is not the one that is looked at
  have hzero : s.prioCheck = 0 → i.1 ≠ s.p := by
    rintro hz hp
    refine hno ?_
    have hpick : picks s.prioCheck (s.ptable ⟨s.p, hp ▸ i.2⟩) = true := by
      rw [show (⟨s.p, hp ▸ i.2⟩ : Slot) = i from Fin.ext hp.symm]
      exact picks_of_le hrun (by omega)
    rw [dispatched, dif_pos (hp ▸ i.2), if_pos hpick]
    exact congrArg some (Fin.ext hp.symm)
  have hvisit : s.p < NPROC → passesLeft i { s with p := s.p + 1 } = passesLeft i s := by
    intro _
    unfold passesLeft
    by_cases hz : s.prioCheck = 0
    · have hne := hzero hz
      simp only [hz, true_and]
      congr 1
      simp only [eq_iff_iff]
      omega
    · simp only [hz, false_and]
  rcases step_cases s f h.p_le with ⟨j, hj, -, -, hs⟩ | ⟨j, hj, -, -, hs⟩ | ⟨hp, -, hs⟩
  · have hlt : s.p < NPROC := hj ▸ j.2
    rw [hs, if_neg (by omega)]
    exact hvisit hlt
  · have hlt : s.p < NPROC := hj ▸ j.2
    rw [hs, if_neg (by omega)]
    exact hvisit hlt
  · have hi := i.2
    rw [hs, if_pos hp]
    unfold passesLeft
    simp only [Nat.not_lt_zero, and_false, if_false]
    by_cases hz : s.prioCheck = 0
    · rw [if_pos (by omega), if_pos ⟨hz, by omega⟩]
      rfl
    · rw [if_neg (by omega), if_neg (by omega)]
      omega

/-! ## Dispatches of one process -/

section Window

variable {i : Slot} {s s' : State} {trs : Trace}

theorem mem_dispatches : i ∈ dispatches trs ↔ ∃ tr ∈ trs, dispatched tr.1 = some i :=
  List.mem_filterMap

theorem Waiting.tail {tr : State × (Table → Table) × State} (h : Waiting i (tr :: trs)) :
    Waiting i trs :=
  ⟨fun x hx => h.ready x (List.mem_cons_of_mem _ hx),
    fun x hx => h.prio x (List.mem_cons_of_mem _ hx)⟩

/-- **A run without a dispatch** of a process at or above 0 is short. -/
theorem passes_le (hrun : anyTable.Run s trs s') (h : Phase s) (hw : Waiting i trs)
    (hprio : 0 ≤ (s.ptable i).prio) (hno : i ∉ dispatches trs) : passes trs ≤ passesLeft i s := by
  induction hrun with
  | nil => exact Nat.zero_le _
  | @cons s s₁ s' f trs hst _ ih =>
    obtain rfl : s₁ = step s f := hst
    have hnot : ∀ tr ∈ (s, f, step s f) :: trs, dispatched tr.1 ≠ some i :=
      fun tr htr hd => hno (mem_dispatches.mpr ⟨tr, htr, hd⟩)
    have hfirst := hnot _ List.mem_cons_self
    have hkeep := hw.prio _ List.mem_cons_self hfirst
    have hrest : passes trs ≤ passesLeft i (step s f) := by
      refine ih (h.step f) hw.tail (by rwa [hkeep]) fun hmem => ?_
      obtain ⟨tr, htr, hd⟩ := mem_dispatches.mp hmem
      exact hnot tr (List.mem_cons_of_mem _ htr) hd
    have hstep := passesLeft_step h (hw.ready _ List.mem_cons_self) hprio hfirst f
    have hcount : passes ((s, f, step s f) :: trs) =
        passes trs + if s.p = NPROC then 1 else 0 := by
      rw [passes, List.countP_cons]
      simp only [decide_eq_true_eq]
      rfl
    omega

/-- What is switched to is at or above the threshold. -/
theorem le_prio_of_dispatched (hd : dispatched s = some i) : s.prioCheck ≤ (s.ptable i).prio := by
  unfold dispatched at hd
  split at hd
  · split at hd
    · rename_i hlt hpick
      rw [← Option.some.inj hd]
      simp only [picks, Bool.not_eq_true', Bool.or_eq_false_iff, decide_eq_false_iff_not] at hpick
      omega
    · cases hd
  · cases hd

/-- **A dispatch** needs a priority that was not below 0 at the start. -/
theorem prio_of_dispatch (hrun : anyTable.Run s trs s') (h : Phase s) (hw : Waiting i trs)
    (hmem : i ∈ dispatches trs) : 0 ≤ (s.ptable i).prio := by
  induction hrun with
  | nil => exact absurd hmem List.not_mem_nil
  | @cons s s₁ s' f trs hst _ ih =>
    obtain rfl : s₁ = step s f := hst
    by_cases hfirst : dispatched s = some i
    · obtain ⟨c, -, hcheck⟩ := h.check
      have hle := le_prio_of_dispatched hfirst
      omega
    · rw [← hw.prio _ List.mem_cons_self hfirst]
      refine ih (h.step f) hw.tail ?_
      obtain ⟨tr, htr, hd⟩ := mem_dispatches.mp hmem
      rcases List.mem_cons.mp htr with rfl | htr
      · exact absurd hd hfirst
      · exact mem_dispatches.mpr ⟨tr, htr, hd⟩

end Window

/-- **The scheduler's fairness.**  From every state between two passes, whatever happens to the
    other processes: 101 passes dispatch a process that is RUNNABLE all the while exactly when its
    priority is not negative. -/
theorem dispatched_iff {s s' : State} {trs : Trace} {i : Slot} (hr : anyTable.Reach s)
    (hrun : anyTable.Run s trs s') (hp : s.p = 0) (hpasses : passes trs = 101)
    (hw : Waiting i trs) : i ∈ dispatches trs ↔ 0 ≤ (s.ptable i).prio := by
  have hphase := phase_reach hr
  refine ⟨prio_of_dispatch hrun hphase hw, fun hprio => ?_⟩
  by_contra hno
  have hle := passes_le hrun hphase hw hprio hno
  obtain ⟨c, hc, hcheck⟩ := hphase.check
  have hstart : passesLeft i s = c := by
    rw [passesLeft, if_neg (by omega)]
    omega
  omega

/-! ## A process below every threshold -/

section Quiet

variable {t : Table}

/-- The run leaves the table alone and switches to no process. -/
structure Quiet (t : Table) (trs : Trace) : Prop where
  before : ∀ tr ∈ trs, tr.1.ptable = t
  after : ∀ tr ∈ trs, tr.2.2.ptable = t

theorem Quiet.cons {s s' : State} {f : Table → Table} {trs : Trace} (h : Quiet t trs)
    (hs : s.ptable = t) (hs' : s'.ptable = t) : Quiet t ((s, f, s') :: trs) := by
  refine ⟨fun tr htr => ?_, fun tr htr => ?_⟩
  · rcases List.mem_cons.mp htr with rfl | htr
    · exact hs
    · exact h.before tr htr
  · rcases List.mem_cons.mp htr with rfl | htr
    · exact hs'
    · exact h.after tr htr

/-- A process of the table that is RUNNABLE waits. -/
theorem Quiet.waiting {trs : Trace} (h : Quiet t trs) {i : Slot} (hrun : (t i).state = .runnable) :
    Waiting i trs := by
  refine ⟨fun tr htr => ?_, fun tr htr _ => ?_⟩
  · rw [h.before tr htr]
    exact hrun
  · rw [h.before tr htr, h.after tr htr]

theorem step_visit (hno : ∀ c i, 0 ≤ c → picks c (t i) = false) {c : Int} (hc : 0 ≤ c) {p : Nat}
    (hp : p < NPROC) : step ⟨c, t, p⟩ id = ⟨c, t, p + 1⟩ := by
  have hd : dispatched ⟨c, t, p⟩ = none := by
    simp only [dispatched, dif_pos hp, hno _ _ hc, Bool.false_eq_true, if_false]
  simp only [step, hp, if_true, hd]

/-- The rest of a pass, before passes in which no process is picked. -/
theorem quiet_pass (hno : ∀ c i, 0 ≤ c → picks c (t i) = false) {m : Nat}
    (hrest : ∀ c, 0 ≤ c → ∃ trs s', anyTable.Run ⟨c, t, 0⟩ trs s' ∧ Quiet t trs ∧ passes trs = m)
    {c : Int} (hc : 0 ≤ c) : ∀ n p, n + p = NPROC →
      ∃ trs s', anyTable.Run ⟨c, t, p⟩ trs s' ∧ Quiet t trs ∧ passes trs = m + 1 := by
  intro n
  induction n with
  | zero =>
    intro p hp
    obtain rfl : p = NPROC := by omega
    have hnext : 0 ≤ (if c - 10 < 0 then 1000 else c - 10) := by split <;> omega
    obtain ⟨trs, s', hrun, hquiet, hm⟩ := hrest _ hnext
    refine ⟨_, s', .cons (e := id) rfl hrun, hquiet.cons rfl rfl, ?_⟩
    rw [passes, List.countP_cons_of_pos (by simp)]
    exact congrArg (· + 1) hm
  | succ n ih =>
    intro p hp
    obtain ⟨trs, s', hrun, hquiet, hm⟩ := ih (p + 1) (by omega)
    refine ⟨_, s', .cons (e := id) (step_visit hno hc (by omega)).symm hrun,
      hquiet.cons rfl rfl, ?_⟩
    rw [passes, List.countP_cons_of_neg (by simp only [decide_eq_true_eq]; omega)]
    exact hm

theorem quiet_passes (hno : ∀ c i, 0 ≤ c → picks c (t i) = false) : ∀ m c, 0 ≤ c →
    ∃ trs s', anyTable.Run ⟨c, t, 0⟩ trs s' ∧ Quiet t trs ∧ passes trs = m := by
  intro m
  induction m with
  | zero => exact fun c _ => ⟨[], _, .nil _, ⟨nofun, nofun⟩, rfl⟩
  | succ m ih => exact fun c hc => quiet_pass hno ih hc NPROC 0 rfl

end Quiet

/-- The first process has called `setprio(-1)`, and is the only one. -/
def lowered : Table := fun i =>
  ⟨4096, if i = Ptable.initproc then .runnable else .unused, i.1 + 1, none, 0, false, 0, -1, 0, 0⟩

theorem lowered_quiet (c : Int) (i : Slot) (hc : 0 ≤ c) : picks c (lowered i) = false := by
  have hlow : (-1 : Int) < c := by omega
  simp only [picks, lowered, hlow, decide_true, Bool.or_true, Bool.not_true]

theorem lowered_passes : ∃ trs s', anyTable.Run ⟨1000, lowered, 0⟩ trs s' ∧ passes trs = 101 ∧
    Waiting 0 trs := by
  obtain ⟨trs, s', hrun, hquiet, hm⟩ := quiet_passes lowered_quiet 101 1000 (by decide)
  exact ⟨trs, s', hrun, hm, hquiet.waiting rfl⟩

theorem dispatched_iff_lowered : ∃ trs s', anyTable.Run ⟨1000, lowered, 0⟩ trs s' ∧
    passes trs = 101 ∧ ((0 : Slot) ∈ dispatches trs ↔ (0 : Int) ≤ -1) := by
  obtain ⟨trs, s', hrun, hm, hw⟩ := lowered_passes
  exact ⟨trs, s', hrun, hm, dispatched_iff (.start ⟨rfl, rfl⟩) hrun rfl hm hw⟩

/-- **A negative priority** is below every threshold. -/
theorem negative_starves :
    ¬ ∀ s trs s' i, anyTable.Reach s → anyTable.Run s trs s' → s.p = 0 → passes trs = 101 →
      Waiting i trs → i ∈ dispatches trs := by
  intro h
  obtain ⟨trs, s', hrun, hm, hw⟩ := lowered_passes
  have hstart : anyTable.Reach ⟨1000, lowered, 0⟩ := .start ⟨rfl, rfl⟩
  have hmem := h _ _ _ _ hstart hrun rfl hm hw
  have hprio : (0 : Int) ≤ -1 := prio_of_dispatch hrun (phase_reach hstart) hw hmem
  exact absurd hprio (by decide)

end OsCodes.Sched
