/-
  The sleep locks of sleeplock.c, over `sleep` and `wakeup`.

  A sleep lock is a monitor whose spinlock is its field `lk`.  `Inv` is shown of the monitor;
  the refinement of `SleepLaw` carries it over to the steps of the processes.

  `Inv` is an invariant in the style of the monitors of pthreads: `locked` is set exactly while
  one process has the lock, and nobody is asleep before a free lock, since `releasesleep` wakes
  all that wait for it.  `sleeplock_excludes` states it of all steps of all processes, those
  inside `sleep` and `wakeup` included.
-/
import OsCodes.Xv6.SleepLaw

namespace OsCodes.Sleeplocks

open Monitor

/-! ## The code -/

/-- `struct sleeplock` without its spinlock. -/
structure Sleeplock where
  locked : Nat
  pid : Int

/-- What a process knows of the lock: that it has acquired it, and what `holdingsleep` last said. -/
structure Client where
  holds : Bool
  said : Option Bool

/-- The three functions of sleeplock.c that processes call. -/
inductive Call
  | acquiresleep
  | releasesleep
  | holdingsleep

section Code

variable {τ : Type}

/-- `initsleeplock`. -/
def initsleeplock : Sleeplock := ⟨0, 0⟩

/-- `acquiresleep`, from the spinlock or from the return of its `sleep`. -/
def acquiresleep (pid : τ → Int) (t : τ) (lk : Sleeplock) : Stretch Sleeplock Client Unit Unit :=
  if lk.locked ≠ 0 then ⟨lk, [], .wait () ()⟩
  else ⟨{ lk with locked := 1, pid := pid t }, [], .leave ⟨true, none⟩⟩

/-- `releasesleep`. -/
def releasesleep (lk : Sleeplock) : Stretch Sleeplock Client Unit Unit :=
  ⟨{ lk with locked := 0, pid := 0 }, [.broadcast ()], .leave ⟨false, none⟩⟩

/-- `holdingsleep`. -/
def holdingsleep (pid : τ → Int) (t : τ) (a : Client) (lk : Sleeplock) :
    Stretch Sleeplock Client Unit Unit :=
  ⟨lk, [], .leave { a with said := some (decide (lk.locked ≠ 0 ∧ lk.pid = pid t)) }⟩

/-- A process acquires a lock that it does not hold, and releases one that it does. -/
def code (pid : τ → Int) : Code Sleeplock τ Client Unit Unit Call where
  may _ a f :=
    match f with
    | .acquiresleep => a.holds = false
    | .releasesleep => a.holds = true
    | .holdingsleep => True
  enter f t a lk :=
    match f with
    | .acquiresleep => acquiresleep pid t lk
    | .releasesleep => releasesleep lk
    | .holdingsleep => holdingsleep pid t a lk
  resume _ t lk := acquiresleep pid t lk

/-- The lock after `initsleeplock`. -/
def start (s : State Sleeplock τ Client Unit Unit) : Prop :=
  s.shared = initsleeplock ∧ ∀ t, s.status t = .out ⟨false, none⟩

end Code

/-! ## The monitor -/

section Law

variable {τ : Type} [DecidableEq τ] {pid : τ → Int}

/-- The process has acquired the lock. -/
def holds : Status Client Unit Unit → Bool
  | .out a => a.holds
  | _ => false

/-- What holds of the lock: `locked` and `pid` name the one process that has it, nobody is asleep
    before a free lock, and what `holdingsleep` has said is right. -/
structure Inv (pid : τ → Int) (s : State Sleeplock τ Client Unit Unit) : Prop where
  holder : ∀ t, holds (s.status t) = true → s.shared.locked ≠ 0 ∧ s.shared.pid = pid t
  held : s.shared.locked ≠ 0 → ∃ t, holds (s.status t) = true
  waits : ∀ t p, s.status t = .blocked () p → s.shared.locked ≠ 0
  said : ∀ t a b, s.status t = .out a → a.said = some b → b = a.holds

namespace Inv

variable {s s' : State Sleeplock τ Client Unit Unit} {t u : τ}

omit [DecidableEq τ] in
theorem unique (h : Inv pid s) (hpid : Function.Injective pid) (ht : holds (s.status t) = true)
    (hu : holds (s.status u) = true) : t = u :=
  hpid ((h.holder t ht).2.symm.trans (h.holder u hu).2)

omit [DecidableEq τ] in
theorem initial (h : start s) : Inv pid s := by
  obtain ⟨hs, hout⟩ := h
  refine ⟨fun t ht => ?_, fun hl => ?_, fun t p hb => ?_, fun t a b ht hb => ?_⟩
  · rw [hout t] at ht
    cases ht
  · rw [hs] at hl
    exact absurd rfl hl
  · rw [hout t] at hb
    cases hb
  · rw [hout t] at ht
    cases ht
    cases hb

omit [DecidableEq τ] in
theorem stirred (h : Inv pid s) (hs : s'.shared = s.shared)
    (hst : Stirred s.status s'.status) : Inv pid s' := by
  have hview : ∀ t, holds (s'.status t) = holds (s.status t) := by
    intro t
    rcases hst t with heq | ⟨c, p, hb, hw⟩
    · rw [heq]
    · rw [hb, hw]
      rfl
  obtain ⟨hholder, hheld, hwaits, hsaid⟩ := h
  rw [← hs] at hholder hheld hwaits
  refine ⟨fun t ht => hholder t (by rw [← hview]; exact ht), fun hl => ?_,
    fun t p hb => hwaits t p (hst.blocked hb), fun t a b ht hb => ?_⟩
  · obtain ⟨t, ht⟩ := hheld hl
    exact ⟨t, by rw [hview]; exact ht⟩
  · rcases hst t with heq | ⟨c, p, -, hw⟩
    · exact hsaid t a b (heq.symm.trans ht) hb
    · rw [ht] at hw
      cases hw

/-- **One stretch**: what is to be shown of its process, of those that hold the lock, and of those
    that still wait. -/
theorem run (h : Inv pid s) {x : Stretch Sleeplock Client Unit Unit}
    (hrun : Runs .some t x s s')
    (hself : holds x.next.status = true → x.shared.locked ≠ 0 ∧ x.shared.pid = pid t)
    (hother : ∀ u, u ≠ t → holds (s.status u) = true →
      x.shared.locked ≠ 0 ∧ x.shared.pid = pid u)
    (hheld : x.shared.locked ≠ 0 →
      holds x.next.status = true ∨ ∃ u, u ≠ t ∧ holds (s.status u) = true)
    (hwait : ∀ p, x.next.status = .blocked () p → x.shared.locked ≠ 0)
    (hwaits : .broadcast () ∉ x.notify → ∀ u p, s.status u = .blocked () p → x.shared.locked ≠ 0)
    (hsaid : ∀ a b, x.next.status = .out a → a.said = some b → b = a.holds) : Inv pid s' := by
  have hview : ∀ u, u ≠ t → holds (s'.status u) = holds (s.status u) := by
    intro u hu
    rcases hrun.other hu with heq | ⟨c, p, hb, hw⟩
    · rw [heq]
    · rw [hb, hw]
      rfl
  have hshared := hrun.shared
  refine ⟨fun u hu => ?_, fun hl => ?_, fun u p hb => ?_, fun u a b hu hb => ?_⟩
  · rw [hshared]
    by_cases hut : u = t
    · rw [hut, hrun.self] at hu
      rw [hut]
      exact hself hu
    · rw [hview u hut] at hu
      exact hother u hut hu
  · rw [hshared] at hl
    rcases hheld hl with hx | ⟨u, hut, hu⟩
    · exact ⟨t, by rw [hrun.self]; exact hx⟩
    · exact ⟨u, by rw [hview u hut]; exact hu⟩
  · rw [hshared]
    by_cases hut : u = t
    · rw [hut, hrun.self] at hb
      exact hwait p hb
    · exact hwaits (fun hx => hrun.broadcast hx hut hb) u p (hrun.blocked hut hb)
  · by_cases hut : u = t
    · rw [hut, hrun.self] at hu
      exact hsaid a b hu hb
    · rcases hrun.other hut with heq | ⟨c, p, -, hw⟩
      · exact h.said u a b (heq.symm.trans hu) hb
      · rw [hu] at hw
        cases hw

/-- **`acquiresleep`** by a process that does not hold the lock. -/
theorem acquiresleep (h : Inv pid s) (ht : holds (s.status t) = false)
    (hrun : Runs .some t (acquiresleep pid t s.shared) s s') : Inv pid s' := by
  have hne : ∀ u, holds (s.status u) = true → u ≠ t := by
    rintro u hu rfl
    rw [ht] at hu
    cases hu
  rw [Sleeplocks.acquiresleep] at hrun
  split at hrun
  case isTrue hlocked =>
    refine h.run hrun (fun hx => by cases hx) (fun u _ hu => h.holder u hu) (fun _ => .inr ?_)
      (fun _ _ => hlocked) (fun _ _ _ _ => hlocked) fun a b hx => by cases hx
    obtain ⟨u, hu⟩ := h.held hlocked
    exact ⟨u, hne u hu, hu⟩
  case isFalse hfree =>
    refine h.run hrun (fun _ => ⟨Nat.one_ne_zero, rfl⟩) (fun u _ hu => ?_) (fun _ => .inl rfl)
      (fun p hx => by cases hx) (fun _ u p hb => absurd (h.waits u p hb) hfree) fun a b hx hb => ?_
    · exact absurd (h.holder u hu).1 hfree
    · cases hx
      cases hb

/-- **`releasesleep`** by the process that holds the lock. -/
theorem releasesleep (h : Inv pid s) (hpid : Function.Injective pid)
    (ht : holds (s.status t) = true) (hrun : Runs .some t (releasesleep s.shared) s s') :
    Inv pid s' := by
  refine h.run hrun (fun hx => by cases hx) (fun u hut hu => absurd (h.unique hpid hu ht) hut)
    (fun hl => absurd rfl hl) (fun p hx => by cases hx)
    (fun hno => absurd (List.mem_singleton.mpr rfl) hno) fun a b hx hb => ?_
  cases hx
  cases hb

/-- **`holdingsleep`** says whether the process holds the lock. -/
theorem holdingsleep (h : Inv pid s) (hpid : Function.Injective pid) {a : Client}
    (ht : s.status t = .out a)
    (hrun : Runs .some t (holdingsleep pid t a s.shared) s s') : Inv pid s' := by
  have hview : holds (s.status t) = a.holds := by rw [ht]; rfl
  refine h.run hrun (fun hx => h.holder t (hview.trans hx)) (fun u _ hu => h.holder u hu)
    (fun hl => ?_) (fun p hx => by cases hx) (fun _ => h.waits) fun a' b hx hb => ?_
  · obtain ⟨u, hu⟩ := h.held hl
    by_cases hut : u = t
    · rw [hut, hview] at hu
      exact .inl hu
    · exact .inr ⟨u, hut, hu⟩
  · cases hx
    obtain rfl := Option.some.inj hb
    show decide _ = a.holds
    cases ha : a.holds with
    | true => exact decide_eq_true (h.holder t (hview.trans ha))
    | false =>
      refine decide_eq_false ?_
      rintro ⟨hl, hp⟩
      obtain ⟨u, hu⟩ := h.held hl
      obtain rfl := hpid ((h.holder u hu).2.symm.trans hp)
      rw [hview, ha] at hu
      cases hu

/-- **The run lemma**: the invariant holds in every state of the monitor, whoever calls what. -/
theorem reach (hpid : Function.Injective pid)
    (h : (Monitor.system (code pid) .some start).Reach s) : Inv pid s := by
  refine h.invariant (I := fun s : State Sleeplock τ Client Unit Unit => Inv pid s)
    (fun s h0 => initial h0) fun s e s' hi hst => ?_
  cases e with
  | enter t f =>
    obtain ⟨a, ha, hmay, hrun⟩ := hst
    have hview : holds (s.status t) = a.holds := by rw [ha]; rfl
    cases f with
    | acquiresleep => exact hi.acquiresleep (hview.trans hmay) hrun
    | releasesleep => exact hi.releasesleep hpid (hview.trans hmay) hrun
    | holdingsleep => exact hi.holdingsleep hpid ha hrun
  | resume t =>
    obtain ⟨p, hp, hrun⟩ := hst
    exact hi.acquiresleep (by rw [hp]; rfl) hrun
  | spurious t =>
    obtain ⟨c, p, hb, rfl⟩ := hst
    exact hi.stirred rfl (stirred_spurious hb)

end Inv

/-! ## The lock itself -/

omit [DecidableEq τ] in
theorem notify_broadcast (g : Sleep.Start Client Unit Call) (t : τ) (x : Sleeplock)
    (n : Notify Unit) (hn : n ∈ (Sleep.stretch (code pid) g t x).notify) :
    n = .broadcast n.channel := by
  have hacq : (Sleeplocks.acquiresleep pid t x).notify = [] := by
    rw [Sleeplocks.acquiresleep]
    split <;> rfl
  cases g with
  | enter f a =>
    cases f with
    | acquiresleep =>
      have hn : n ∈ (Sleeplocks.acquiresleep pid t x).notify := hn
      rw [hacq] at hn
      cases hn
    | releasesleep =>
      obtain rfl := List.mem_singleton.mp hn
      rfl
    | holdingsleep => cases hn
  | resume p =>
    have hn : n ∈ (Sleeplocks.acquiresleep pid t x).notify := hn
    rw [hacq] at hn
    cases hn

/-- **Sleep locks exclude, and wake whom they must.**  Over all steps of all processes: at most one
    of those in user code has acquired the lock and not released it; `holdingsleep` has answered
    right; and where nobody has the spinlock, a process that is asleep for the lock sleeps because
    another one has it. -/
theorem sleeplock_excludes (hpid : Function.Injective pid)
    {s : Sleep.State Sleeplock τ Client Unit Unit Call}
    (h : (Sleep.system (code pid) start).Reach s) :
    (∀ t u a b, s.pc t = .user a → s.pc u = .user b → a.holds = true → b.holds = true → t = u) ∧
    (∀ t a b, s.pc t = .user a → a.said = some b → b = a.holds) ∧
    (s.lk = none → ∀ t p, s.pc t = .sched () p → (s.proc t).state = .sleeping →
      ∃ u, u ≠ t ∧ holds (s.abs.status u) = true) := by
  obtain ⟨m, hm, hsim⟩ := Sleep.exists_sim notify_broadcast h
  have hinv := Inv.reach hpid hm
  refine ⟨fun t u a b ht hu ha hb => ?_, fun t a b ht hb => hinv.said t a b (hsim.user ht) hb,
    fun hfree t p ht hs => ?_⟩
  · refine hinv.unique hpid ?_ ?_
    · rw [hsim.user ht]
      exact ha
    · rw [hsim.user hu]
      exact hb
  · rw [hsim.eq_abs hfree] at hinv
    have hblocked : s.abs.status t = .blocked () p := by
      show Sleep.status (s.proc t) (s.pc t) = _
      rw [ht]
      exact if_pos hs
    obtain ⟨u, hu⟩ := hinv.held (hinv.waits t p hblocked)
    refine ⟨u, ?_, hu⟩
    rintro rfl
    rw [hblocked] at hu
    cases hu

end Law

/-! ## A run -/

/-- Two processes. -/
def pids : Bool → Int
  | false => 1
  | true => 2

abbrev Run := (Sleep.system (code pids) start).Reach

theorem reach_call {s : Sleep.State Sleeplock Bool Client Unit Unit Call} (h : Run s) (t : Bool)
    (f : Call) {a : Client} (hpc : s.pc t = .user a) (hmay : (code pids).may t a f) :
    Run { s with pc := Function.update s.pc t (.acquire (.enter f a)) } :=
  .step (e := .call t f) h ⟨a, hpc, hmay, rfl⟩

theorem reach_advance {s s' : Sleep.State Sleeplock Bool Client Unit Unit Call} (h : Run s)
    (t : Bool) (hs : Sleep.advance (code pids) t s = some s') : Run s' :=
  .step (e := .advance t) h hs

/-- `false` acquires the lock, and `true` goes to sleep for it. -/
theorem contended_reach : ∃ s, Run s ∧ s.lk = none ∧
    s.pc true = .sched () () ∧ (s.proc true).state = .sleeping := by
  have h₀ : Run
      ⟨none, none, initsleeplock, fun _ => ⟨.running, none⟩, fun _ => .user ⟨false, none⟩⟩ :=
    .start ⟨⟨rfl, fun _ => rfl⟩, rfl, rfl, fun _ => ⟨⟨_, rfl⟩, rfl⟩⟩
  have h₁ := reach_call h₀ false .acquiresleep rfl rfl
  have h₂ := reach_advance h₁ false rfl
  have h₃ := reach_advance h₂ false rfl
  have h₄ := reach_advance h₃ false rfl
  have h₅ := reach_call h₄ true .acquiresleep rfl rfl
  have h₆ := reach_advance h₅ true rfl
  have h₇ := reach_advance h₆ true rfl
  have h₈ := reach_advance h₇ true rfl
  have h₉ := reach_advance h₈ true rfl
  have h₁₀ := reach_advance h₉ true rfl
  have h₁₁ := reach_advance h₁₀ true rfl
  exact ⟨_, h₁₁, rfl, rfl, rfl⟩

theorem sleep_refines_monitor_contended :
    ∃ (s : Sleep.State Sleeplock Bool Client Unit Unit Call) (a : State Sleeplock Bool Client Unit Unit),
      s.pc true = .sched () () ∧ (Monitor.system (code pids) .some start).Reach a ∧
        a.shared = s.shared ∧ (∀ t b, s.pc t = .user b → a.status t = .out b) ∧
        (s.lk = none → a = s.abs) := by
  obtain ⟨s, h, -, hpc, -⟩ := contended_reach
  obtain ⟨a, ha⟩ := Sleep.sleep_refines_monitor notify_broadcast h
  exact ⟨s, a, hpc, ha⟩

theorem sleeplock_excludes_contended :
    ∃ s : Sleep.State Sleeplock Bool Client Unit Unit Call, s.pc true = .sched () () ∧
      ∃ u, u ≠ true ∧ holds (s.abs.status u) = true := by
  obtain ⟨s, h, hfree, hpc, hs⟩ := contended_reach
  exact ⟨s, hpc, (sleeplock_excludes (by decide) h).2.2 hfree true () hpc hs⟩

end OsCodes.Sleeplocks
