/-
  `sleep` and `wakeup` implement the monitor.

  A stretch counts as run when its process has read and written the shared data.  From then on the
  monitor has woken whom the process has yet to wake up: `Sim` says that those, and no others, may
  still be asleep in the process table.  Nobody can fall asleep on such a channel before the process
  is done with it, since that takes `lk`; and who has released `lk` in `sleep` still has
  `ptable.lock` until the table says that it sleeps, so that a `wakeup` finds it.

  Structure:

  1. `Own`: each lock is held by the process that is where one holds it, and by nobody else;
  2. `Sim` relates the state of the processes to one of the monitor.  `todo` lists the channels
     that the process with `lk` has yet to wake up: for the monitor those sleepers are awake
     already;
  3. `silent` covers the steps that the monitor does not see, `body` the one that it does, and
     `wakeup1` the walk through the table, process by process (`hit`, `miss`);
  4. `advance` and `kill` are the events, `step` the step lemma and `exists_sim` the run lemma;
  5. `sleep_refines_monitor` states the refinement, for any code that uses the two functions.
-/
import OsCodes.Xv6.Sleep

namespace OsCodes.Sleep

open Monitor Ptable

variable {σ τ α κ ρ φ : Type}

/-! ## The two locks -/

/-- The process holds `lk` there. -/
def holdsLk : Pc α κ ρ φ → Bool
  | .locked _ | .notify _ _ | .wakeup _ _ _ | .woken _ _ | .sleep _ _ => true
  | _ => false

/-- The process holds `ptable.lock` there. -/
def holdsPt : Pc α κ ρ φ → Bool
  | .wakeup _ _ _ | .woken _ _ | .sleep _ _ | .released _ _ | .marked _ _ | .tidy _ => true
  | _ => false

/-- The lock says who is where one holds it. -/
def Own (H : Pc α κ ρ φ → Bool) (lock : Option τ) (pc : τ → Pc α κ ρ φ) : Prop :=
  ∀ t, lock = some t ↔ H (pc t) = true

namespace Own

variable {H : Pc α κ ρ φ → Bool} {lock : Option τ} {pc : τ → Pc α κ ρ φ} {t u : τ}
  {pc' : Pc α κ ρ φ}

theorem unique (h : Own H lock pc) (ht : H (pc t) = true) (hu : H (pc u) = true) : u = t := by
  have ht := (h t).mpr ht
  rw [(h u).mpr hu] at ht
  exact Option.some.inj ht

variable [DecidableEq τ]

theorem keep (h : Own H lock pc) (heq : H pc' = H (pc t)) :
    Own H lock (Function.update pc t pc') := by
  intro u
  by_cases hu : u = t
  · rw [hu, Function.update_self, heq]
    exact h t
  · rw [Function.update_of_ne hu]
    exact h u

theorem take (h : Own H lock pc) (hfree : lock = none) (ht : H pc' = true) :
    Own H (some t) (Function.update pc t pc') := by
  intro u
  by_cases hu : u = t
  · rw [hu, Function.update_self]
    exact ⟨fun _ => ht, fun _ => rfl⟩
  · rw [Function.update_of_ne hu]
    constructor
    · intro hs
      exact absurd (Option.some.inj hs).symm hu
    · intro hu
      rw [← h u, hfree] at hu
      cases hu

theorem give (h : Own H lock pc) (ht : H (pc t) = true) (hnot : H pc' = false) :
    Own H none (Function.update pc t pc') := by
  intro u
  by_cases hu : u = t
  · rw [hu, Function.update_self, hnot]
    exact ⟨fun hn => (by cases hn), fun hf => (by cases hf)⟩
  · rw [Function.update_of_ne hu]
    constructor
    · intro hn
      cases hn
    · intro hH
      exact absurd (h.unique ht hH) hu

end Own

/-! ## The simulation -/

/-- What the process table says of a process. -/
def InTable (q : Proc κ) : Pc α κ ρ φ → Prop
  | .marked c _ => q.state = .sleeping ∧ q.chan = some c
  | .sched c _ => (q.state = .sleeping ∨ q.state = .runnable) ∧ q.chan = some c
  | _ => q.state = .running

/-- The channels that a process has yet to wake up. -/
def todo : Pc α κ ρ φ → List κ
  | .notify cs _ | .woken cs _ => cs
  | .wakeup c cs _ => c :: cs
  | _ => []

/-- A call is one that may be made. -/
def Allowed (m : Code σ τ α κ ρ φ) (t : τ) : Pc α κ ρ φ → Prop
  | .acquire (.enter f a) | .locked (.enter f a) => m.may t a f
  | _ => True

theorem holdsLk_of_todo {pc : Pc α κ ρ φ} {c : κ} (h : c ∈ todo pc) : holdsLk pc = true := by
  cases pc with
  | notify | wakeup | woken => rfl
  | _ => cases h

/-- The process `t` is asleep, and another one that has the lock is about to wake it up. -/
def Pending (s : State σ τ α κ ρ φ) (a : Monitor.State σ τ α κ ρ) (t : τ) : Prop :=
  ∃ u c p, u ≠ t ∧ c ∈ todo (s.pc u) ∧ s.abs.status t = .blocked c p ∧ a.status t = .woken p

/-- The processes and the monitor side by side: the locks and the table are where the processes have
    them, the shared data agree, and the monitor has woken at least whom the table has. -/
structure Sim (m : Code σ τ α κ ρ φ) (s : State σ τ α κ ρ φ) (a : Monitor.State σ τ α κ ρ) :
    Prop where
  lk : Own holdsLk s.lk s.pc
  ptlock : Own holdsPt s.ptlock s.pc
  table : ∀ t, InTable (s.proc t) (s.pc t)
  allowed : ∀ t, Allowed m t (s.pc t)
  shared : a.shared = s.shared
  status : ∀ t, a.status t = s.abs.status t ∨ Pending s a t
  woken : ∀ u c, c ∈ todo (s.pc u) → ∀ t p, t ≠ u → a.status t ≠ .blocked c p

namespace Sim

variable {m : Code σ τ α κ ρ φ} {s s' : State σ τ α κ ρ φ} {a : Monitor.State σ τ α κ ρ} {t : τ}

/-- With nobody left to be woken up, the monitor sees what is there. -/
theorem status_eq (h : Sim m s a) (hnone : ∀ u, u ≠ t → todo (s.pc u) = []) :
    a.status t = s.abs.status t := by
  rcases h.status t with heq | ⟨u, c, p, hut, hc, -⟩
  · exact heq
  · rw [hnone u hut] at hc
    cases hc

/-- The process that has `lk` is where the monitor has it. -/
theorem status_of_lk (h : Sim m s a) (ht : holdsLk (s.pc t) = true) :
    a.status t = s.abs.status t := by
  refine h.status_eq fun u hu => List.eq_nil_iff_forall_not_mem.mpr fun c hc => ?_
  exact hu (h.lk.unique ht (holdsLk_of_todo hc))

theorem eq_abs (h : Sim m s a) (hfree : s.lk = none) : a = s.abs := by
  have hnone : ∀ u, todo (s.pc u) = [] := fun u =>
    List.eq_nil_iff_forall_not_mem.mpr fun c hc => by
      have hu := (h.lk u).mpr (holdsLk_of_todo hc)
      rw [hfree] at hu
      cases hu
  have hstatus : a.status = s.abs.status := funext fun t => h.status_eq fun u _ => hnone u
  obtain ⟨shared, status⟩ := a
  have hshared : shared = s.shared := h.shared
  have hstatus : status = s.abs.status := hstatus
  rw [hshared, hstatus]
  rfl

variable [DecidableEq τ]

/-- **A step that the monitor does not see.** -/
theorem silent (h : Sim m s a) (t : τ) (pc' : Pc α κ ρ φ) (q' : Proc κ)
    (hpc : s'.pc = Function.update s.pc t pc') (hproc : s'.proc = Function.update s.proc t q')
    (hshared : s'.shared = s.shared) (hlk : Own holdsLk s'.lk s'.pc)
    (hptlock : Own holdsPt s'.ptlock s'.pc) (htable : InTable q' pc') (hallowed : Allowed m t pc')
    (htodo : todo pc' = todo (s.pc t))
    (hview : Sleep.status q' pc' = Sleep.status (s.proc t) (s.pc t)) : Sim m s' a := by
  have habs : s'.abs.status = s.abs.status := by
    funext u
    show Sleep.status (s'.proc u) (s'.pc u) = Sleep.status (s.proc u) (s.pc u)
    rw [hpc, hproc]
    by_cases hu : u = t
    · rw [hu, Function.update_self, Function.update_self, hview]
    · rw [Function.update_of_ne hu, Function.update_of_ne hu]
  have htodos : ∀ u, todo (s'.pc u) = todo (s.pc u) := by
    intro u
    rw [hpc]
    by_cases hu : u = t
    · rw [hu, Function.update_self, htodo]
    · rw [Function.update_of_ne hu]
  refine ⟨hlk, hptlock, fun u => ?_, fun u => ?_, h.shared.trans hshared.symm, fun u => ?_,
    fun u c hc => ?_⟩
  · rw [hpc, hproc]
    by_cases hu : u = t
    · rw [hu, Function.update_self, Function.update_self]
      exact htable
    · rw [Function.update_of_ne hu, Function.update_of_ne hu]
      exact h.table u
  · rw [hpc]
    by_cases hu : u = t
    · rw [hu, Function.update_self]
      exact hallowed
    · rw [Function.update_of_ne hu]
      exact h.allowed u
  · rw [Pending, habs]
    simp only [htodos]
    exact h.status u
  · rw [htodos] at hc
    exact h.woken u c hc

variable [DecidableEq κ]

omit [DecidableEq κ] in
/-- The table after a step of `t` that leaves the table alone. -/
theorem table_update (h : Sim m s a) {pc' : Pc α κ ρ φ} (htable : InTable (s.proc t) pc') :
    ∀ u, InTable (s.proc u) (Function.update s.pc t pc' u) :=
  (Function.forall_update_iff s.pc fun u pc => InTable (s.proc u) pc).mpr
    ⟨htable, fun u _ => h.table u⟩

omit [DecidableEq κ] in
theorem allowed_update (h : Sim m s a) {pc' : Pc α κ ρ φ} (hallowed : Allowed m t pc') :
    ∀ u, Allowed m u (Function.update s.pc t pc' u) :=
  (Function.forall_update_iff s.pc fun u pc => Allowed m u pc).mpr
    ⟨hallowed, fun u _ => h.allowed u⟩

omit [DecidableEq κ] [DecidableEq τ] in
/-- Behind `acquire(lk)` nobody is left to be woken up. -/
theorem todo_of_locked (h : Sim m s a) {g : Start α ρ φ} (hpc : s.pc t = .locked g) (u : τ) :
    todo (s.pc u) = [] := by
  have hlocked : holdsLk (s.pc t) = true := by rw [hpc]; rfl
  refine List.eq_nil_iff_forall_not_mem.mpr fun c hc => ?_
  obtain rfl := h.lk.unique hlocked (holdsLk_of_todo hc)
  rw [hpc] at hc
  cases hc

/-- What the stretch does is a step of the monitor. -/
theorem exists_step (h : Sim m s a) {g : Start α ρ φ} (hpc : s.pc t = .locked g) :
    ∃ e a', Monitor.Step m .some a e a' ∧ Runs .some t (stretch m g t s.shared) a a' := by
  have ht : a.status t = Sleep.status (s.proc t) (s.pc t) :=
    h.status_eq fun u _ => h.todo_of_locked hpc u
  have hallowed := h.allowed t
  rw [hpc] at ht hallowed
  rw [← h.shared]
  obtain ⟨a', hrun⟩ := exists_runs .some t (stretch m g t a.shared) a
  cases g with
  | enter f b => exact ⟨.enter t f, a', ⟨b, ht, hallowed, hrun⟩, hrun⟩
  | resume p => exact ⟨.resume t, a', ⟨p, ht, hrun⟩, hrun⟩

/-- **The step that the monitor sees**: the shared data are read and written. -/
theorem body (h : Sim m s a) (hm : ∀ g t x n, n ∈ (stretch m g t x).notify → n = .broadcast n.channel)
    {g : Start α ρ φ} (hpc : s.pc t = .locked g) :
    ∃ e a', Monitor.Step m .some a e a' ∧
      Sim m { s with
        shared := (stretch m g t s.shared).shared
        pc := Function.update s.pc t (.notify ((stretch m g t s.shared).notify.map Notify.channel)
          (stretch m g t s.shared).next) } a' := by
  have hnone := h.todo_of_locked hpc
  have hstatus : ∀ u, a.status u = s.abs.status u := fun u => h.status_eq fun v _ => hnone v
  have htable := h.table t
  rw [hpc] at htable
  obtain ⟨e, a', hstep, hrun⟩ := h.exists_step hpc
  have hbroad := hm g t s.shared
  generalize stretch m g t s.shared = x at hrun hbroad
  refine ⟨e, a', hstep, h.lk.keep (by rw [hpc]; rfl), h.ptlock.keep (by rw [hpc]; rfl),
    h.table_update htable, h.allowed_update trivial, hrun.shared, fun u => ?_,
    fun u c hc v p hv => ?_⟩
  · by_cases hu : u = t
    · refine .inl ?_
      show a'.status u = Sleep.status (s.proc u) (Function.update s.pc t _ u)
      rw [hu, Function.update_self]
      exact hrun.self
    · have hview : Sleep.status (s.proc u) (Function.update s.pc t
          (.notify (x.notify.map Notify.channel) x.next) u) = a.status u := by
        rw [Function.update_of_ne hu]
        exact (hstatus u).symm
      rcases hrun.other hu with heq | ⟨c, p, hb, hw⟩
      · exact .inl (heq.trans hview.symm)
      · refine .inr ⟨t, c, p, fun hut => hu hut.symm, ?_, hview.trans hb, hw⟩
        show c ∈ todo (Function.update s.pc t _ t)
        rw [Function.update_self]
        exact hrun.channel hu hb hw
  · have hc : c ∈ todo (Function.update s.pc t
        (.notify (x.notify.map Notify.channel) x.next) u) := hc
    by_cases hu : u = t
    · rw [hu, Function.update_self] at hc
      obtain ⟨n, hn, hnc⟩ := List.mem_map.mp hc
      rw [hu] at hv
      refine hrun.broadcast ?_ hv
      rw [← hnc, ← hbroad n hn]
      exact hn
    · rw [Function.update_of_ne hu, hnone u] at hc
      cases hc

omit [DecidableEq κ] [DecidableEq τ] in
/-- Who is in `wakeup` runs. -/
theorem not_asleep (h : Sim m s a) {c : κ} {cs : List κ} {n : Next α κ ρ}
    (hpc : s.pc t = .wakeup c cs n) :
    ¬ ((s.proc t).state = .sleeping ∧ (s.proc t).chan = some c) := by
  rintro ⟨hs, -⟩
  have htable := h.table t
  rw [hpc] at htable
  have hrunning : (s.proc t).state = .running := htable
  rw [hrunning] at hs
  cases hs

omit [DecidableEq κ] [DecidableEq τ] in
/-- Whom `wakeup1` wakes is in `sched`, and awake for the monitor. -/
theorem hit (h : Sim m s a) {c : κ} {cs : List κ} {n : Next α κ ρ} (hpc : s.pc t = .wakeup c cs n)
    {u : τ} (hs : (s.proc u).state = .sleeping) (hch : (s.proc u).chan = some c) :
    ∃ p, s.pc u = .sched c p ∧ a.status u = .woken p := by
  have hpt : holdsPt (s.pc t) = true := by rw [hpc]; rfl
  have htable := h.table u
  cases hu : s.pc u with
  | sched d p =>
    rw [hu] at htable
    obtain rfl : d = c := Option.some.inj (htable.2.symm.trans hch)
    have hview : s.abs.status u = .blocked d p := by
      show Sleep.status (s.proc u) (s.pc u) = _
      rw [hu]
      exact if_pos hs
    have hut : u ≠ t := by
      rintro rfl
      rw [hu] at hpc
      cases hpc
    have hno := h.woken t d (by rw [hpc]; exact List.mem_cons_self) u p hut
    rcases h.status u with heq | ⟨-, d', p', -, -, hb, hw⟩
    · exact absurd (heq.trans hview) hno
    · rw [hview] at hb
      cases hb
      exact ⟨p, rfl, hw⟩
  | marked d p =>
    have hut := h.ptlock.unique hpt (u := u) (by rw [hu]; rfl)
    rw [hut, hpc] at hu
    cases hu
  | _ =>
    rw [hu] at htable
    have hrunning : (s.proc u).state = .running := htable
    rw [hrunning] at hs
    cases hs

omit [DecidableEq κ] [DecidableEq τ] in
/-- Whom it does not wake was not asleep on `c`. -/
theorem miss (h : Sim m s a) {c : κ} {cs : List κ} {n : Next α κ ρ} (hpc : s.pc t = .wakeup c cs n)
    {u : τ} (hut : u ≠ t) (hno : ¬ ((s.proc u).state = .sleeping ∧ (s.proc u).chan = some c))
    (p : ρ) : s.abs.status u ≠ .blocked c p := by
  intro hb
  have hb : Sleep.status (s.proc u) (s.pc u) = .blocked c p := hb
  have htable := h.table u
  have hfree : holdsLk (s.pc u) = false := Bool.eq_false_of_not_eq_true fun hu =>
    hut (h.lk.unique (by rw [hpc]; rfl) hu)
  have hfree' : holdsPt (s.pc u) = false := Bool.eq_false_of_not_eq_true fun hu =>
    hut (h.ptlock.unique (by rw [hpc]; rfl) hu)
  cases hu : s.pc u with
  | sched d q =>
    rw [hu] at hb htable
    have hb : (if (s.proc u).state = .sleeping then .blocked d q else .woken q) =
      Status.blocked (α := α) c p := hb
    split at hb
    · rename_i hs
      cases hb
      exact hno ⟨hs, htable.2⟩
    · cases hb
  | user | tidy =>
    rw [hu] at hb
    cases hb
  | acquire g =>
    rw [hu] at hb
    cases g with
    | enter | resume => cases hb
  | locked | notify | wakeup | woken | sleep =>
    rw [hu] at hfree
    cases hfree
  | released | marked =>
    rw [hu] at hfree'
    cases hfree'

/-- Where the monitor has a process, after `wakeup1`. -/
theorem wakeup1_status (h : Sim m s a) {c : κ} {cs : List κ} {n : Next α κ ρ}
    (hpc : s.pc t = .wakeup c cs n) (u : τ) :
    a.status u = Sleep.status (Sleep.wakeup1 c s.proc u)
        (Function.update s.pc t (.woken cs n) u) ∨
      ∃ v d p, v ≠ u ∧ d ∈ todo (Function.update s.pc t (.woken cs n) v) ∧
        Sleep.status (Sleep.wakeup1 c s.proc u) (Function.update s.pc t (.woken cs n) u) =
          .blocked d p ∧ a.status u = .woken p := by
  have hlk : holdsLk (s.pc t) = true := by rw [hpc]; rfl
  by_cases hut : u = t
  · refine .inl ?_
    rw [hut, Function.update_self, Sleep.wakeup1, if_neg (h.not_asleep hpc), h.status_of_lk hlk]
    show Sleep.status (s.proc t) (s.pc t) = _
    rw [hpc]
    rfl
  · rw [Function.update_of_ne hut, Sleep.wakeup1]
    split
    · rename_i hit
      obtain ⟨p, hu, hw⟩ := h.hit hpc hit.1 hit.2
      refine .inl ?_
      rw [hu, hw]
      rfl
    · rename_i hit
      rcases h.status u with heq | ⟨v, d, p, hvu, hd, hb, hw⟩
      · exact .inl heq
      · -- it is still to be woken up, on another channel
        refine .inr ⟨v, d, p, hvu, ?_, hb, hw⟩
        obtain rfl := h.lk.unique hlk (holdsLk_of_todo hd)
        rw [Function.update_self]
        rw [hpc] at hd
        rcases List.mem_cons.mp hd with rfl | hd
        · exact absurd hb (h.miss hpc hut hit p)
        · exact hd

/-- **`wakeup1`** wakes those that the monitor has woken. -/
theorem wakeup1 (h : Sim m s a) {c : κ} {cs : List κ} {n : Next α κ ρ}
    (hpc : s.pc t = .wakeup c cs n) :
    Sim m { s with
      proc := Sleep.wakeup1 c s.proc
      pc := Function.update s.pc t (.woken cs n) } a := by
  refine ⟨h.lk.keep (by rw [hpc]; rfl), h.ptlock.keep (by rw [hpc]; rfl), fun u => ?_,
    h.allowed_update trivial, h.shared, h.wakeup1_status hpc, fun u d hd => ?_⟩
  · show InTable (Sleep.wakeup1 c s.proc u) (Function.update s.pc t _ u)
    by_cases hut : u = t
    · have htable := h.table t
      rw [hpc] at htable
      rw [hut, Function.update_self, Sleep.wakeup1, if_neg (h.not_asleep hpc)]
      exact htable
    · rw [Function.update_of_ne hut, Sleep.wakeup1]
      split
      · rename_i hit
        obtain ⟨p, hu, -⟩ := h.hit hpc hit.1 hit.2
        rw [hu]
        exact ⟨.inr rfl, hit.2⟩
      · exact h.table u
  · have hd : d ∈ todo (Function.update s.pc t (.woken cs n) u) := hd
    refine h.woken u d ?_
    by_cases hu : u = t
    · rw [hu, Function.update_self] at hd
      rw [hu, hpc]
      exact List.mem_cons_of_mem _ hd
    · rw [Function.update_of_ne hu] at hd
      exact hd

omit [DecidableEq κ] [DecidableEq τ] in
/-- Whom `kill` wakes is in `sched`. -/
theorem asleep_cases (h : Sim m s a) (hs : (s.proc t).state = .sleeping)
    (hfree : s.ptlock = none) : ∃ c p, s.pc t = .sched c p := by
  have htable := h.table t
  cases ht : s.pc t with
  | sched c p => exact ⟨c, p, rfl⟩
  | marked c p =>
    have hpt := (h.ptlock t).mpr (by rw [ht]; rfl)
    rw [hfree] at hpt
    cases hpt
  | _ =>
    rw [ht] at htable
    have hrunning : (s.proc t).state = .running := htable
    rw [hrunning] at hs
    cases hs

/-- **`kill`** of a process that is asleep. -/
theorem kill (h : Sim m s a) (hs : (s.proc t).state = .sleeping) (hfree : s.ptlock = none) :
    ∃ a', (a' = a ∨ ∃ e, Monitor.Step m .some a e a') ∧
      Sim m { s with
        proc := Function.update s.proc t { s.proc t with state := .runnable } } a' := by
  obtain ⟨c, p, hpc⟩ := h.asleep_cases hs hfree
  have hview : s.abs.status t = .blocked c p := by
    show Sleep.status (s.proc t) (s.pc t) = _
    rw [hpc]
    exact if_pos hs
  have hseen : a.status t = .blocked c p ∨ a.status t = .woken p := by
    rcases h.status t with heq | ⟨-, d, q, -, -, hb, hw⟩
    · exact .inl (heq.trans hview)
    · rw [hview] at hb
      cases hb
      exact .inr hw
  refine ⟨⟨a.shared, Function.update a.status t (.woken p)⟩, ?_, h.lk, h.ptlock, fun u => ?_,
    h.allowed, h.shared, fun u => ?_, fun u d hd v q hv => ?_⟩
  · rcases hseen with hb | hw
    · exact .inr ⟨.spurious t, c, p, hb, rfl⟩
    · refine .inl ?_
      rw [← hw, Function.update_eq_self]
  · show InTable (Function.update s.proc t _ u) (s.pc u)
    by_cases hu : u = t
    · have htable := h.table t
      rw [hpc] at htable
      rw [hu, Function.update_self, hpc]
      exact ⟨.inr rfl, htable.2⟩
    · rw [Function.update_of_ne hu]
      exact h.table u
  · show Function.update a.status t (.woken p) u =
        Sleep.status (Function.update s.proc t _ u) (s.pc u) ∨
      ∃ v d q, v ≠ u ∧ d ∈ todo (s.pc v) ∧
        Sleep.status (Function.update s.proc t _ u) (s.pc u) = .blocked d q ∧
        Function.update a.status t (.woken p) u = .woken q
    by_cases hu : u = t
    · refine .inl ?_
      rw [hu, Function.update_self, Function.update_self, hpc]
      rfl
    · rw [Function.update_of_ne hu, Function.update_of_ne hu]
      exact h.status u
  · show Function.update a.status t (.woken p) v ≠ _
    by_cases hvt : v = t
    · rw [hvt, Function.update_self]
      exact fun heq => by cases heq
    · rw [Function.update_of_ne hvt]
      exact h.woken u d hd v q hv

omit [DecidableEq κ] in
/-- A step that leaves the process table alone. -/
theorem advance_silent (h : Sim m s a) {t : τ} {pc' : Pc α κ ρ φ} {lk ptlock : Option τ}
    (hlk : Own holdsLk lk (Function.update s.pc t pc'))
    (hptlock : Own holdsPt ptlock (Function.update s.pc t pc'))
    (htable : InTable (s.proc t) pc') (hallowed : Allowed m t pc')
    (htodo : todo pc' = todo (s.pc t))
    (hview : Sleep.status (s.proc t) pc' = Sleep.status (s.proc t) (s.pc t)) :
    Sim m { s with lk := lk, ptlock := ptlock, pc := Function.update s.pc t pc' } a :=
  h.silent t pc' (s.proc t) rfl (Function.update_eq_self t s.proc).symm rfl hlk hptlock htable
    hallowed htodo hview

/-- **One instruction.** -/
theorem advance (h : Sim m s a)
    (hm : ∀ g t x n, n ∈ (stretch m g t x).notify → n = .broadcast n.channel)
    (hs : Sleep.advance m t s = some s') :
    ∃ a', (a' = a ∨ ∃ e, Monitor.Step m .some a e a') ∧ Sim m s' a' := by
  have htable := h.table t
  have hallowed := h.allowed t
  unfold Sleep.advance at hs
  cases hpc : s.pc t with
  | user b =>
    rw [hpc] at hs
    cases hs
  | acquire g =>
    simp only [hpc, Option.ite_none_right_eq_some] at hs
    obtain ⟨hfree, hs⟩ := hs
    cases hs
    rw [hpc] at htable hallowed
    refine ⟨a, .inl rfl, h.advance_silent (h.lk.take hfree rfl) (h.ptlock.keep (by rw [hpc]; rfl))
      htable ?_ (by rw [hpc]; rfl) ?_⟩
    · cases g with
      | enter f b => exact hallowed
      | resume p => trivial
    · rw [hpc]
      cases g with
      | enter f b => rfl
      | resume p => rfl
  | locked g =>
    simp only [hpc] at hs
    cases hs
    obtain ⟨e, a', hstep, hsim⟩ := h.body hm hpc
    exact ⟨a', .inr ⟨e, hstep⟩, hsim⟩
  | notify cs n =>
    rw [hpc] at htable
    cases cs with
    | nil =>
      cases n with
      | leave b =>
        simp only [hpc] at hs
        cases hs
        exact ⟨a, .inl rfl, h.advance_silent (h.lk.give (by rw [hpc]; rfl) rfl)
          (h.ptlock.keep (by rw [hpc]; rfl)) htable trivial (by rw [hpc]; rfl) (by rw [hpc]; rfl)⟩
      | wait c p =>
        simp only [hpc, Option.ite_none_right_eq_some] at hs
        obtain ⟨hfree, hs⟩ := hs
        cases hs
        exact ⟨a, .inl rfl, h.advance_silent (h.lk.keep (by rw [hpc]; rfl))
          (h.ptlock.take hfree rfl) htable trivial (by rw [hpc]; rfl) (by rw [hpc]; rfl)⟩
    | cons c cs =>
      simp only [hpc, Option.ite_none_right_eq_some] at hs
      obtain ⟨hfree, hs⟩ := hs
      cases hs
      exact ⟨a, .inl rfl, h.advance_silent (h.lk.keep (by rw [hpc]; rfl))
        (h.ptlock.take hfree rfl) htable trivial (by rw [hpc]; rfl) (by rw [hpc]; rfl)⟩
  | wakeup c cs n =>
    simp only [hpc] at hs
    cases hs
    exact ⟨a, .inl rfl, h.wakeup1 hpc⟩
  | woken cs n =>
    rw [hpc] at htable
    simp only [hpc] at hs
    cases hs
    exact ⟨a, .inl rfl, h.advance_silent (h.lk.keep (by rw [hpc]; rfl))
      (h.ptlock.give (by rw [hpc]; rfl) rfl) htable trivial (by rw [hpc]; rfl) (by rw [hpc]; rfl)⟩
  | sleep c p =>
    rw [hpc] at htable
    simp only [hpc] at hs
    cases hs
    exact ⟨a, .inl rfl, h.advance_silent (h.lk.give (by rw [hpc]; rfl) rfl)
      (h.ptlock.keep (by rw [hpc]; rfl)) htable trivial (by rw [hpc]; rfl) (by rw [hpc]; rfl)⟩
  | released c p =>
    simp only [hpc] at hs
    cases hs
    exact ⟨a, .inl rfl, h.silent t _ _ rfl rfl rfl (h.lk.keep (by rw [hpc]; rfl))
      (h.ptlock.keep (by rw [hpc]; rfl)) ⟨rfl, rfl⟩ trivial (by rw [hpc]; rfl) (by rw [hpc]; rfl)⟩
  | marked c p =>
    rw [hpc] at htable
    simp only [hpc] at hs
    cases hs
    refine ⟨a, .inl rfl, h.advance_silent (h.lk.keep (by rw [hpc]; rfl))
      (h.ptlock.give (by rw [hpc]; rfl) rfl) ⟨.inl htable.1, htable.2⟩ trivial (by rw [hpc]; rfl) ?_⟩
    rw [hpc]
    exact if_pos htable.1
  | sched c p =>
    rw [hpc] at hs
    cases hs
  | tidy p =>
    rw [hpc] at htable
    simp only [hpc] at hs
    cases hs
    exact ⟨a, .inl rfl, h.silent t _ _ rfl rfl rfl (h.lk.keep (by rw [hpc]; rfl))
      (h.ptlock.give (by rw [hpc]; rfl) rfl) htable trivial (by rw [hpc]; rfl) (by rw [hpc]; rfl)⟩

/-- **The step lemma**: a step of the kernel is a step of the monitor, or none, from related states
    to related states. -/
theorem step (h : Sim m s a)
    (hm : ∀ g t x n, n ∈ (stretch m g t x).notify → n = .broadcast n.channel) {e : Event τ φ}
    (hst : Step m s e s') : ∃ a', (a' = a ∨ ∃ e, Monitor.Step m .some a e a') ∧ Sim m s' a' := by
  cases e with
  | call t f =>
    obtain ⟨b, hpc, hmay, rfl⟩ := hst
    have htable := h.table t
    rw [hpc] at htable
    exact ⟨a, .inl rfl, h.advance_silent (h.lk.keep (by rw [hpc]; rfl))
      (h.ptlock.keep (by rw [hpc]; rfl)) htable hmay (by rw [hpc]; rfl) (by rw [hpc]; rfl)⟩
  | advance t => exact h.advance hm hst
  | dispatch t =>
    have hst : Sleep.dispatch t s = some s' := hst
    unfold Sleep.dispatch at hst
    split at hst
    · rename_i c p hpc
      rw [Option.ite_none_right_eq_some] at hst
      obtain ⟨⟨hfree, hstate⟩, hst⟩ := hst
      cases hst
      refine ⟨a, .inl rfl, h.silent t _ _ rfl rfl rfl (h.lk.keep (by rw [hpc]; rfl))
        (h.ptlock.take hfree rfl) rfl trivial (by rw [hpc]; rfl) ?_⟩
      rw [hpc]
      exact (if_neg (by rw [hstate]; decide)).symm
    · cases hst
  | kill t =>
    have hst : Sleep.kill t s = some s' := hst
    rw [Sleep.kill, Option.ite_none_right_eq_some] at hst
    obtain ⟨hfree, hst⟩ := hst
    split at hst
    · rename_i hs
      cases hst
      exact h.kill hs hfree
    · cases hst
      exact ⟨a, .inl rfl, h⟩

omit [DecidableEq τ] [DecidableEq κ] in
/-- A process in user code is where the monitor has it. -/
theorem user (h : Sim m s a) {b : α} (ht : s.pc t = .user b) : a.status t = .out b := by
  have hview : s.abs.status t = .out b := by
    show Sleep.status (s.proc t) (s.pc t) = _
    rw [ht]
    rfl
  rcases h.status t with heq | ⟨-, c, p, -, -, hb, -⟩
  · exact heq.trans hview
  · rw [hview] at hb
    cases hb

end Sim

/-! ## The refinement -/

variable [DecidableEq κ] [DecidableEq τ] {m : Code σ τ α κ ρ φ}
  {start : Monitor.State σ τ α κ ρ → Prop}

/-- **The run lemma**: for every run of the kernel there is one of the monitor that ends in a
    related state. -/
theorem exists_sim (hm : ∀ g t x n, n ∈ (stretch m g t x).notify → n = .broadcast n.channel)
    {s : State σ τ α κ ρ φ} (h : (system m start).Reach s) :
    ∃ a, (Monitor.system m .some start).Reach a ∧ Sim m s a := by
  refine h.invariant (I := fun s : State σ τ α κ ρ φ =>
    ∃ a, (Monitor.system m .some start).Reach a ∧ Sim m s a) ?_ ?_
  · rintro s ⟨hstart, hlk, hpt, hout⟩
    have hpc : ∀ t, ∃ b, s.pc t = .user b := fun t => (hout t).1
    have hnone : ∀ (H : Pc α κ ρ φ → Bool) (lock : Option τ), (∀ b, H (.user b) = false) →
        lock = none → Own H lock s.pc := by
      intro H lock hH hl t
      obtain ⟨b, hb⟩ := hpc t
      rw [hl, hb, hH b]
      exact ⟨fun h => (by cases h), fun h => (by cases h)⟩
    refine ⟨s.abs, .start hstart, hnone _ _ (fun _ => rfl) hlk, hnone _ _ (fun _ => rfl) hpt,
      fun t => ?_, fun t => ?_, rfl, fun t => .inl rfl, fun u c hc => ?_⟩
    · obtain ⟨b, hb⟩ := hpc t
      rw [hb]
      exact (hout t).2
    · obtain ⟨b, hb⟩ := hpc t
      rw [hb]
      trivial
    · obtain ⟨b, hb⟩ := hpc u
      rw [hb] at hc
      cases hc
  · rintro s e s' ⟨a, ha, hsim⟩ hst
    obtain ⟨a', hstep, hsim'⟩ := hsim.step hm hst
    refine ⟨a', ?_, hsim'⟩
    rcases hstep with rfl | ⟨e', hstep⟩
    · exact ha
    · exact .step ha hstep

/-- **`sleep` and `wakeup` implement a monitor.**  Whatever the processes do between the
    acquires and releases of the two locks, the shared data and where the processes in user code
    are come from a run of the monitor; and whenever nobody has `lk`, the whole state does: who is
    asleep in the process table is blocked there, on the channel that it sleeps on, and nobody
    else. -/
theorem sleep_refines_monitor
    (hm : ∀ g t x n, n ∈ (stretch m g t x).notify → n = .broadcast n.channel)
    {s : State σ τ α κ ρ φ} (h : (system m start).Reach s) :
    ∃ a, (Monitor.system m .some start).Reach a ∧ a.shared = s.shared ∧
      (∀ t b, s.pc t = .user b → a.status t = .out b) ∧ (s.lk = none → a = s.abs) := by
  obtain ⟨a, ha, hsim⟩ := exists_sim hm h
  exact ⟨a, ha, hsim.shared, fun t b => hsim.user, hsim.eq_abs⟩

end OsCodes.Sleep
