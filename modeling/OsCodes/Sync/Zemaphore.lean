/-
  The semaphore of `zemaphore.c`, shared by threads that call `zem_down` and `zem_up` as they like.

  1. **The code** — `zem_t` keeps an `int`, so `value` is an `Int32`: `value--` at `INT_MIN` and
     `value++` at `INT_MAX` wrap around, as they do where the code runs (the language leaves both
     undefined).  `zem_down` and `zem_up` hold the mutex from end to end, and `pthread_cond_wait`
     gives it up, so each is one stretch of a `Monitor` and `zem_down` behind its wait another one.
     Initialising the mutex and the condition variable is no part of the model.

  2. **The record** — `Tally` counts the calls that were made and those that have returned.
     `balance` is what the counter would be without a bound: the initial value and the `zem_up`s,
     without the `zem_down`s.  `Books` ties the two together, however waiters are woken: the counter
     is the balance modulo 2³², and a `zem_down` that was started has returned or is inside its wait.

  3. **Safety** — The wait is not in a loop, so a thread goes on after any wakeup, also one that no
     `zem_up` has caused.  `Orderly` steps have no such wakeup; from there the blocked threads cover
     whatever the balance lacks (`Covered`), so that the others have gone on with a unit each.

  4. **Exact accounting** — Where a signal wakes one waiter and the counter stays in the range of an
     `int`, the counter is the balance, and a negative one counts the blocked threads (`Exact`).  At
     `INT_MAX` one more `zem_up` makes the counter negative, with nobody blocked.
-/
import OsCodes.Lib.Bytes
import OsCodes.Lib.Monitor

namespace OsCodes.Zemaphore

open Bytes Monitor

/-! ## The code -/

/-- `zem_t`, without its mutex and its condition variable: those are the monitor. -/
structure Zem where
  value : Int32

/-- `zem_init`, which stores the value as it is. -/
def zemInit (value : Int32) : Zem := ⟨value⟩

section Code

variable {α κ ρ : Type}

/-- `zem_down`, which waits on `c` and returns to `a`. -/
def zemDown (c : κ) (p : ρ) (a : α) (z : Zem) : Stretch Zem α κ ρ :=
  let z := { z with value := z.value - 1 }
  if z.value < 0 then ⟨z, [], .wait c p⟩ else ⟨z, [], .leave a⟩

/-- `zem_down` after its wait: it returns at once, without another look at the value. -/
def zemDownWoken (a : α) (z : Zem) : Stretch Zem α κ ρ := ⟨z, [], .leave a⟩

/-- `zem_up`: one unit more, and a signal whether anybody waits or not. -/
def zemUp (c : κ) (a : α) (z : Zem) : Stretch Zem α κ ρ :=
  ⟨{ z with value := z.value + 1 }, [.signal c], .leave a⟩

end Code

/-- The two functions of zemaphore.h that threads call. -/
inductive Call
  | down
  | up

/-- Threads that call the semaphore's functions in any order. -/
def code (τ : Type) : Code Zem τ Unit Unit Unit Call where
  may _ _ _ := True
  enter f _ _ z := match f with
    | .down => zemDown () () () z
    | .up => zemUp () () z
  resume _ _ z := zemDownWoken () z

abbrev St (τ : Type) := State Zem τ Unit Unit Unit

variable {τ : Type} [DecidableEq τ]

/-- The semaphore after `zem_init` with value `v`. -/
def zemaphore (v : Int32) (w : Wakes) (τ : Type) [DecidableEq τ] : Lts (St τ) (Event τ Call) :=
  system (code τ) w fun s => s.shared = zemInit v ∧ ∀ t, s.status t = .out ()

/-! ## The record of a run -/

/-- The calls of `zem_down` started and returned, and the calls of `zem_up`. -/
structure Tally where
  started : Int
  returned : Int
  ups : Int

/-- One more return of `zem_down` if the stretch leaves. -/
def Tally.leaves (g : Tally) (x : Stretch Zem Unit Unit Unit) : Tally :=
  match x.next with
  | .leave _ => { g with returned := g.returned + 1 }
  | .wait _ _ => g

/-- The record after an event in `s`. -/
def Tally.after (s : St τ) (g : Tally) : Event τ Call → Tally
  | .enter _ .down => { g with started := g.started + 1 }.leaves (zemDown () () () s.shared)
  | .enter _ .up => { g with ups := g.ups + 1 }
  | .resume _ => g.leaves (zemDownWoken () s.shared)
  | .spurious _ => g

/-- The semaphore with its record. -/
def recorded (v : Int32) (w : Wakes) (τ : Type) [DecidableEq τ] :
    Lts (St τ × Tally) (Event τ Call) :=
  (zemaphore v w τ).withGhost ⟨0, 0, 0⟩ Tally.after

/-- What a step of the recorded semaphore can be. -/
inductive Move (w : Wakes) (s s' : St τ × Tally) : Event τ Call → Prop
  | blocks {t : τ} : s.1.status t = .out () → s.1.shared.value - 1 < 0 →
      Runs w t ⟨⟨s.1.shared.value - 1⟩, [], .wait () ()⟩ s.1 s'.1 →
      s'.2 = ⟨s.2.started + 1, s.2.returned, s.2.ups⟩ → Move w s s' (.enter t .down)
  | passes {t : τ} : s.1.status t = .out () → ¬ s.1.shared.value - 1 < 0 →
      Runs w t ⟨⟨s.1.shared.value - 1⟩, [], .leave ()⟩ s.1 s'.1 →
      s'.2 = ⟨s.2.started + 1, s.2.returned + 1, s.2.ups⟩ → Move w s s' (.enter t .down)
  | posts {t : τ} : s.1.status t = .out () →
      Runs w t ⟨⟨s.1.shared.value + 1⟩, [.signal ()], .leave ()⟩ s.1 s'.1 →
      s'.2 = ⟨s.2.started, s.2.returned, s.2.ups + 1⟩ → Move w s s' (.enter t .up)
  | goesOn {t : τ} : s.1.status t = .woken () →
      Runs w t ⟨s.1.shared, [], .leave ()⟩ s.1 s'.1 →
      s'.2 = ⟨s.2.started, s.2.returned + 1, s.2.ups⟩ → Move w s s' (.resume t)
  | stirs {t : τ} : s.1.status t = .blocked () () →
      s'.1 = ⟨s.1.shared, Function.update s.1.status t (.woken ())⟩ → s'.2 = s.2 →
      Move w s s' (.spurious t)

/-- **A step** is a move. -/
theorem step_cases {v : Int32} {w : Wakes} {s s' : St τ × Tally} {e : Event τ Call}
    (hst : (recorded v w τ).step s e s') : Move w s s' e := by
  obtain ⟨hstep, hg⟩ := hst
  cases e with
  | enter t f =>
    obtain ⟨a, ha, -, hrun⟩ := hstep
    cases f with
    | down =>
      have hrun : Runs w t (zemDown () () () s.1.shared) s.1 s'.1 := hrun
      have hg : s'.2 = { s.2 with started := s.2.started + 1 }.leaves
        (zemDown () () () s.1.shared) := hg
      by_cases hneg : s.1.shared.value - 1 < 0
      · rw [zemDown, if_pos hneg] at hrun hg
        exact .blocks ha hneg hrun hg
      · rw [zemDown, if_neg hneg] at hrun hg
        exact .passes ha hneg hrun hg
    | up => exact .posts ha hrun hg
  | resume t =>
    obtain ⟨p, hw, hrun⟩ := hstep
    exact .goesOn hw hrun hg
  | spurious t =>
    obtain ⟨c, p, hb, hs⟩ := hstep
    exact .stirs hb hs hg

section Forward

variable {v : Int32} {w : Wakes} {s : St τ × Tally} {t u : τ}

/-- A `zem_down` that finds no unit blocks. -/
theorem step_blocks (ht : s.1.status t = .out ()) (hneg : s.1.shared.value - 1 < 0) :
    (recorded v w τ).step s (.enter t .down)
      (⟨⟨s.1.shared.value - 1⟩, Function.update s.1.status t (.blocked () ())⟩,
        ⟨s.2.started + 1, s.2.returned, s.2.ups⟩) := by
  have hdown : zemDown () () () s.1.shared =
      (⟨⟨s.1.shared.value - 1⟩, [], .wait () ()⟩ : Stretch Zem Unit Unit Unit) := by
    rw [zemDown, if_pos hneg]
  constructor
  · refine ⟨(), ht, trivial, s.1.status, ?_, ?_⟩
    · show Notified w (zemDown () () () s.1.shared).notify s.1.status s.1.status
      rw [hdown]
      rfl
    · show _ = State.mk (zemDown () () () s.1.shared).shared
        (Function.update s.1.status t (zemDown () () () s.1.shared).next.status)
      rw [hdown]
      rfl
  · show _ = Tally.leaves _ (zemDown () () () s.1.shared)
    rw [hdown]
    rfl

/-- A `zem_up` may wake any thread that is blocked. -/
theorem step_posts (ht : s.1.status t = .out ()) (hu : s.1.status u = .blocked () ()) :
    (recorded v w τ).step s (.enter t .up)
      (⟨⟨s.1.shared.value + 1⟩,
        Function.update (Function.update s.1.status u (.woken ())) t (.out ())⟩,
        ⟨s.2.started, s.2.returned, s.2.ups + 1⟩) :=
  ⟨⟨(), ht, trivial, _, notified_signal hu, rfl⟩, rfl⟩

/-- A `zem_up` that finds nobody blocked leaves its unit in the counter. -/
theorem step_stores (ht : s.1.status t = .out ()) (hno : ¬ Waiting s.1.status ()) :
    (recorded v w τ).step s (.enter t .up)
      (⟨⟨s.1.shared.value + 1⟩, Function.update s.1.status t (.out ())⟩,
        ⟨s.2.started, s.2.returned, s.2.ups + 1⟩) :=
  ⟨⟨(), ht, trivial, _, notified_nobody hno, rfl⟩, rfl⟩

/-- A thread that has been woken returns. -/
theorem step_goesOn (ht : s.1.status t = .woken ()) :
    (recorded v w τ).step s (.resume t)
      (⟨s.1.shared, Function.update s.1.status t (.out ())⟩,
        ⟨s.2.started, s.2.returned + 1, s.2.ups⟩) :=
  ⟨⟨(), ht, _, rfl, rfl⟩, rfl⟩

end Forward

/-! ## One waiter for each signal -/

/-- The semaphore where a signal wakes one waiter and nothing else wakes any. -/
def signalled (v : Int32) (τ : Type) [DecidableEq τ] : Lts (St τ × Tally) (Event τ Call) :=
  (recorded v .one τ).guard fun _ e => ∀ t, e ≠ .spurious t

/-- Thread `t` is let go in the step. -/
def Roused (s s' : St τ × Tally) (t : τ) : Prop :=
  s.1.status t = .blocked () () ∧ s'.1.status t = .woken ()

/-- The step wakes nobody without a signal and no two threads with one, and is no `zem_down` at
    `INT_MIN`. -/
def Orderly (s : St τ × Tally) (e : Event τ Call) (s' : St τ × Tally) : Prop :=
  (∀ t, e ≠ .spurious t) ∧ (∀ t u, Roused s s' t → Roused s s' u → t = u) ∧
    ∀ t, e = .enter t .down → s.1.shared.value ≠ Int32.minValue

/-- The runs of orderly steps, with what POSIX says of signals and waits. -/
def orderly (v : Int32) (τ : Type) [DecidableEq τ] : Lts (St τ × Tally) (Event τ Call) where
  start := (recorded v .some τ).start
  step s e s' := Orderly s e s' ∧ (recorded v .some τ).step s e s'

/-- An orderly step is one in which a signal wakes one waiter. -/
theorem signalled_of_orderly {v : Int32} {s s' : St τ × Tally} {e : Event τ Call}
    (hst : (orderly v τ).step s e s') : (signalled v τ).step s e s' := by
  obtain ⟨⟨hno, hone, -⟩, hstep⟩ := hst
  refine ⟨hno, ?_⟩
  -- only the signal of `zem_up` is another in the two systems
  have hquiet : ∀ {t : τ} {x : Stretch Zem Unit Unit Unit}, x.notify = [] →
      Runs .some t x s.1 s'.1 → Runs .one t x s.1 s'.1 := by
    rintro t x hx ⟨st, hst, hs⟩
    refine ⟨st, ?_, hs⟩
    rw [hx] at hst ⊢
    exact hst
  obtain ⟨hstep, hg⟩ := hstep
  refine ⟨?_, hg⟩
  cases e with
  | enter t f =>
    obtain ⟨a, ha, hmay, hrun⟩ := hstep
    refine ⟨a, ha, hmay, ?_⟩
    cases f with
    | down =>
      refine hquiet ?_ hrun
      show (zemDown () () () s.1.shared).notify = []
      by_cases hneg : s.1.shared.value - 1 < 0
      · rw [zemDown, if_pos hneg]
      · rw [zemDown, if_neg hneg]
    | up =>
      refine hrun.one rfl (fun c p hb => ?_) fun u u' c c' p p' hu hw hu' hw' => ?_
      · rw [ha] at hb
        cases hb
      · exact hone u u' ⟨hu, hw⟩ ⟨hu', hw'⟩
  | resume t =>
    obtain ⟨p, hw, hrun⟩ := hstep
    exact ⟨p, hw, hquiet rfl hrun⟩
  | spurious t => exact absurd rfl (hno t)

/-- Where a signal wakes one waiter, steps are orderly. -/
theorem orderly_of_signalled {v : Int32} {s s' : St τ × Tally} {e : Event τ Call}
    (hst : (signalled v τ).step s e s') (hmin : s.1.shared.value ≠ Int32.minValue) :
    (orderly v τ).step s e s' := by
  refine ⟨⟨hst.1, fun u u' hu hu' => ?_, fun _ _ => hmin⟩, Step.some hst.2.1, hst.2.2⟩
  -- a stretch without a signal rouses nobody
  have hquiet : ∀ {t : τ} {x : Stretch Zem Unit Unit Unit}, x.notify = [] →
      (∀ p, x.next.status ≠ .woken p) → Runs .one t x s.1 s'.1 → u = u' := by
    intro t x hx hne hrun
    exfalso
    obtain ⟨hb, hw⟩ := hu
    rw [hrun.quiet hx] at hw
    by_cases hut : u = t
    · rw [hut, Function.update_self] at hw
      exact hne _ hw
    · rw [Function.update_of_ne hut, hb] at hw
      cases hw
  cases step_cases hst.2 with
  | blocks ho hneg hrun hg => exact hquiet rfl (fun p hp => by cases hp) hrun
  | passes ho hpos hrun hg => exact hquiet rfl (fun p hp => by cases hp) hrun
  | goesOn hw hrun hg => exact hquiet rfl (fun p hp => by cases hp) hrun
  | @stirs t hb hs hg => exact absurd rfl (hst.1 t)
  | @posts t ho hrun hg =>
    rcases hrun.signal_one rfl with ⟨hno, -⟩ | ⟨x, p, hx, hs⟩
    · exact absurd ⟨u, (), hu.1⟩ hno
    · -- whoever is roused is the one that the signal has picked
      have hpick : ∀ y, Roused s s' y → y = x := by
        rintro y ⟨hb, hw⟩
        by_contra hyx
        rw [hs] at hw
        by_cases hyt : y = t
        · rw [hyt, Function.update_self] at hw
          cases hw
        · rw [Function.update_of_ne hyt, Function.update_of_ne hyx, hb] at hw
          cases hw
      rw [hpick u hu, hpick u' hu']

/-- **`zem_up` loses no waiter**: if one is blocked, it wakes one. -/
theorem up_wakes {v : Int32} {s s' : St τ × Tally} {t : τ}
    (hst : (signalled v τ).step s (.enter t .up) s') (hw : ∃ u, s.1.status u = .blocked () ()) :
    ∃ u, s.1.status u = .blocked () () ∧
      s'.1.status = Function.update s.1.status u (.woken ()) := by
  obtain ⟨v, hv⟩ := hw
  cases step_cases hst.2 with
  | posts ho hrun hg =>
    rcases hrun.signal_one rfl with ⟨hno, -⟩ | ⟨u, p, hu, hs⟩
    · exact absurd ⟨v, (), hv⟩ hno
    · refine ⟨u, hu, ?_⟩
      have htu : t ≠ u := by
        intro heq
        rw [heq, hu] at ho
        cases ho
      have hsame : Next.status (.leave () : Next Unit Unit Unit) =
          Function.update s.1.status u (.woken ()) t := by
        rw [Function.update_of_ne htu, ho]
        rfl
      rw [hs, hsame, Function.update_eq_self]

/-! ## Threads that contend

A run of three threads, for any of the systems above that allows its steps: 0 and 1 block, 2 makes
two calls of `zem_up`, the first of which wakes 0 and the second 1, 0 returns, and 2 blocks. -/

theorem enter_ne_spurious {α : Type} (t : α) (f : Call) : ∀ u, Event.enter t f ≠ .spurious u := by
  intro u heq
  cases heq

theorem resume_ne_spurious {α : Type} (t : α) :
    ∀ u, (Event.resume t : Event α Call) ≠ .spurious u := by
  intro u heq
  cases heq

theorem contended {L : Lts (St (Fin 3) × Tally) (Event (Fin 3) Call)}
    (h0 : L.start (⟨⟨0⟩, fun _ => .out ()⟩, ⟨0, 0, 0⟩))
    (hstep : ∀ s e s', (signalled 0 (Fin 3)).step s e s' → s.1.shared.value ≠ Int32.minValue →
      s.1.shared.value ≠ Int32.maxValue → L.step s e s') :
    ∃ s, L.Reach s ∧ s.1.status 0 = .out () ∧ s.1.status 1 = .woken () ∧
      s.1.status 2 = .blocked () () ∧ s.1.shared.value = -1 ∧ s.2 = ⟨3, 1, 2⟩ := by
  have h1 := (Lts.Reach.start h0).step
    (hstep _ _ _ ⟨enter_ne_spurious _ _, step_blocks (t := 0) rfl (by decide)⟩ (by decide)
      (by decide))
  have h2 := h1.step
    (hstep _ _ _ ⟨enter_ne_spurious _ _, step_blocks (t := 1) rfl (by decide)⟩ (by decide)
      (by decide))
  have h3 := h2.step
    (hstep _ _ _ ⟨enter_ne_spurious _ _, step_posts (t := 2) (u := 0) rfl rfl⟩ (by decide)
      (by decide))
  have h4 := h3.step
    (hstep _ _ _ ⟨enter_ne_spurious _ _, step_posts (t := 2) (u := 1) rfl rfl⟩ (by decide)
      (by decide))
  have h5 := h4.step
    (hstep _ _ _ ⟨resume_ne_spurious _, step_goesOn (t := 0) rfl⟩ (by decide) (by decide))
  have h6 := h5.step
    (hstep _ _ _ ⟨enter_ne_spurious _ _, step_blocks (t := 2) rfl (by decide)⟩ (by decide)
      (by decide))
  exact ⟨_, h6, rfl, rfl, rfl, rfl, rfl⟩

/-! ## The books -/

/-- The thread is inside the wait of `zem_down`, blocked or woken. -/
def inside : Status Unit Unit Unit → Bool
  | .out _ => false
  | .blocked _ _ => true
  | .woken _ => true

/-- The thread is blocked. -/
def blocked : Status Unit Unit Unit → Bool
  | .out _ => false
  | .blocked _ _ => true
  | .woken _ => false

/-- The thread has been woken and has not gone on. -/
def woken : Status Unit Unit Unit → Bool
  | .out _ => false
  | .blocked _ _ => false
  | .woken _ => true

theorem inside_woken (c p : Unit) : inside (.woken p) = inside (.blocked c p) := rfl

/-- The units there are, or that are lacking: what the counter counts. -/
def balance (v : Int32) (g : Tally) : Int := v.toInt + g.ups - g.started

section Balance

variable (v : Int32) (g : Tally) (returned : Int)

theorem balance_down : balance v ⟨g.started + 1, returned, g.ups⟩ = balance v g - 1 := by
  show v.toInt + g.ups - (g.started + 1) = v.toInt + g.ups - g.started - 1
  omega

theorem balance_up : balance v ⟨g.started, returned, g.ups + 1⟩ = balance v g + 1 := by
  show v.toInt + (g.ups + 1) - g.started = v.toInt + g.ups - g.started + 1
  omega

theorem balance_return : balance v ⟨g.started, returned, g.ups⟩ = balance v g := rfl

end Balance

variable [Fintype τ]

/-- A thread inside the wait is blocked or woken. -/
theorem count_inside (st : τ → Status Unit Unit Unit) :
    count inside st = count blocked st + count woken st := by
  refine count_or (fun x => ?_) (fun x hx => ?_) st
  · cases x <;> rfl
  · cases x with
    | out a => cases hx
    | blocked c p => rfl
    | woken p => cases hx

/-- A move changes the number of threads inside by what its own thread does. -/
theorem inside_runs (b b' : Bool) {w : Wakes} {t : τ} {x : Stretch Zem Unit Unit Unit}
    {s s' : St τ} (hrun : Runs w t x s s') (hb : inside (s.status t) = b)
    (hb' : inside x.next.status = b') :
    count inside s'.status + (if b then 1 else 0) =
      count inside s.status + if b' then 1 else 0 := by
  have hmove := hrun.count inside_woken
  rw [hb, hb'] at hmove
  exact hmove

/-- A `zem_up` whose signal wakes one takes one from the blocked threads, if there are any. -/
theorem blocked_posts {t : τ} {z : Zem} {s s' : St τ} (ho : s.status t = .out ())
    (hrun : Runs .one t ⟨z, [.signal ()], .leave ()⟩ s s') :
    (count blocked s'.status = 0 ∧ count blocked s.status = 0) ∨
      count blocked s'.status + 1 = count blocked s.status := by
  rcases hrun.signal_one rfl with ⟨hno, hs⟩ | ⟨u, p, hu, hs⟩
  · have hzero : count blocked s.status = 0 := by
      refine count_eq_zero.mpr fun u => ?_
      cases hus : s.status u with
      | out a => rfl
      | woken p => rfl
      | blocked c p => exact absurd ⟨u, p, hus⟩ hno
    refine .inl ⟨?_, hzero⟩
    rw [hs, count_update_same (by rw [ho]; rfl), hzero]
  · have hut : t ≠ u := by
      intro heq
      rw [heq, hu] at ho
      cases ho
    have hone : count blocked (Function.update s.status u (.woken p)) + 1 =
        count blocked s.status := count_update_sub (by rw [hu]; rfl) rfl
    right
    rw [hs, count_update_same (by rw [Function.update_of_ne hut, ho]; rfl)]
    exact hone

/-- The counter is the balance, up to the range of an `int`, and a `zem_down` that has been started
    has returned or is inside its wait. -/
structure Books (v : Int32) (s : St τ × Tally) : Prop where
  value : s.1.shared.value = Int32.ofInt (balance v s.2)
  started : s.2.started = s.2.returned + count inside s.1.status

/-- **The books are right**, however waiters are woken. -/
theorem Books.step {v : Int32} {w : Wakes} {s s' : St τ × Tally} {e : Event τ Call}
    (h : Books v s) (hst : (recorded v w τ).step s e s') : Books v s' := by
  have hval := h.value
  have hstarted := h.started
  cases step_cases hst with
  | blocks ho hneg hrun hg =>
    have hin := inside_runs false true hrun (by rw [ho]; rfl) rfl
    simp only [Bool.false_eq_true, if_false, if_true] at hin
    constructor
    · rw [hrun.shared, hg, balance_down, Int32.ofInt_sub, ← hval]
      rfl
    · rw [hg]
      show s.2.started + 1 = s.2.returned + count inside s'.1.status
      omega
  | passes ho hpos hrun hg =>
    have hin := inside_runs false false hrun (by rw [ho]; rfl) rfl
    constructor
    · rw [hrun.shared, hg, balance_down, Int32.ofInt_sub, ← hval]
      rfl
    · rw [hg]
      show s.2.started + 1 = s.2.returned + 1 + count inside s'.1.status
      omega
  | posts ho hrun hg =>
    have hin := inside_runs false false hrun (by rw [ho]; rfl) rfl
    constructor
    · rw [hrun.shared, hg, balance_up, Int32.ofInt_add, ← hval]
      rfl
    · rw [hg]
      show s.2.started = s.2.returned + count inside s'.1.status
      omega
  | goesOn hw hrun hg =>
    have hin := inside_runs true false hrun (by rw [hw]; rfl) rfl
    simp only [Bool.false_eq_true, if_false, if_true] at hin
    constructor
    · rw [hrun.shared, hg]
      exact hval
    · rw [hg]
      show s.2.started = s.2.returned + 1 + count inside s'.1.status
      omega
  | stirs hb hs hg =>
    have hin : count inside s'.1.status = count inside s.1.status := by
      rw [hs]
      exact (stirred_spurious hb).count inside_woken
    constructor
    · rw [hs, hg]
      exact hval
    · rw [hg, hin]
      exact hstarted

/-- Before the first call. -/
theorem Books.initial {v : Int32} {w : Wakes} {s : St τ × Tally} (h : (recorded v w τ).start s) :
    Books v s := by
  obtain ⟨⟨hs, hout⟩, hg⟩ := h
  have hin : count inside s.1.status = 0 := count_eq_zero.mpr fun t => by rw [hout t]; rfl
  constructor
  · have hv : balance v s.2 = v.toInt := by
      rw [hg, balance]
      show v.toInt + 0 - 0 = v.toInt
      omega
    rw [hs, hv, Int32.ofInt_toInt]
    rfl
  · rw [hg, hin]
    rfl

/-- Nobody is blocked before the first call. -/
theorem blocked_initial {v : Int32} {w : Wakes} {s : St τ × Tally}
    (h : (recorded v w τ).start s) : count blocked s.1.status = 0 ∧ balance v s.2 = v.toInt := by
  obtain ⟨⟨-, hout⟩, hg⟩ := h
  refine ⟨count_eq_zero.mpr fun t => by rw [hout t]; rfl, ?_⟩
  rw [hg, balance]
  show v.toInt + 0 - 0 = v.toInt
  omega

/-- The sign of the counter is that of the balance, where the balance is an `int`. -/
theorem ofInt_neg_iff {z : Int} (h : -2147483648 ≤ z) (h' : z < 2147483648) :
    Int32.ofInt z < 0 ↔ z < 0 := by
  rw [Int32.lt_iff_toInt_lt, toInt_ofInt_of_fits h h']
  rfl

/-! ## How many calls return -/

/-- The blocked threads are as many as there are units lacking, or more: nobody else lacks one. -/
structure Covered (v : Int32) (s : St τ × Tally) : Prop where
  books : Books v s
  least : -2147483648 ≤ balance v s.2
  covered : 0 ≤ balance v s.2 + count blocked s.1.status

/-- **An orderly step** leaves nobody without a unit but the blocked threads. -/
theorem Covered.step {v : Int32} {s s' : St τ × Tally} {e : Event τ Call} (h : Covered v s)
    (hst : (orderly v τ).step s e s') : Covered v s' := by
  have hdown := hst.1.2.2
  have hst := signalled_of_orderly hst
  have hval := h.books.value
  have hleast := h.least
  have hcov := h.covered
  -- a `zem_down` does not come where the balance is `INT_MIN`
  have habove : ∀ t, e = .enter t .down → -2147483648 < balance v s.2 := by
    intro t ht
    by_contra hle
    obtain hmin : balance v s.2 = -2147483648 := by omega
    refine hdown t ht ?_
    rw [hval, hmin]
    rfl
  refine ⟨h.books.step hst.2, ?_, ?_⟩
  · cases step_cases hst.2 with
    | blocks ho hneg hrun hg | passes ho hpos hrun hg =>
      have habove := habove _ rfl
      rw [hg, balance_down]
      omega
    | posts ho hrun hg =>
      rw [hg, balance_up]
      omega
    | goesOn hw hrun hg =>
      rw [hg, balance_return]
      exact hleast
    | @stirs t hb hs hg => exact absurd rfl (hst.1 t)
  · cases step_cases hst.2 with
    | blocks ho hneg hrun hg =>
      rw [hrun.quiet rfl, count_update_add (by rw [ho]; rfl) rfl, hg, balance_down]
      omega
    | passes ho hpos hrun hg =>
      -- the thread has found a unit
      have hunit : 1 ≤ balance v s.2 := by
        by_contra hlt
        have habove := habove _ rfl
        refine hpos ?_
        have hless : s.1.shared.value - 1 = Int32.ofInt (balance v s.2 - 1) := by
          rw [Int32.ofInt_sub, ← hval]
          rfl
        rw [hless, ofInt_neg_iff (by omega) (by omega)]
        omega
      rw [hrun.quiet rfl, count_update_same (by rw [ho]; rfl), hg, balance_down]
      omega
    | posts ho hrun hg =>
      rw [hg, balance_up]
      rcases blocked_posts ho hrun with ⟨hzero', hzero⟩ | hone
      · omega
      · omega
    | goesOn hw hrun hg =>
      rw [hrun.quiet rfl, count_update_same (by rw [hw]; rfl), hg, balance_return]
      exact hcov
    | @stirs t hb hs hg => exact absurd rfl (hst.1 t)

/-- **The run lemma**: the blocked threads cover what is lacking wherever orderly steps lead. -/
theorem covered {v : Int32} (hv : 0 ≤ v) {s : St τ × Tally} (hr : (orderly v τ).Reach s) :
    Covered v s := by
  refine hr.invariant (fun s h0 => ?_) fun s e s' h hst => h.step hst
  obtain ⟨-, hbal⟩ := blocked_initial h0
  have hpos : 0 ≤ v.toInt := Int32.le_iff_toInt_le.mp hv
  exact ⟨Books.initial h0, by omega, by omega⟩

/-- **When `zem_down` is safe**: in every state that orderly steps lead to, the calls that have
    returned number at most the initial value and the calls of `zem_up`. -/
theorem down_bound {v : Int32} (hv : 0 ≤ v) {s : St τ × Tally} (hr : (orderly v τ).Reach s) :
    s.2.returned ≤ v.toInt + s.2.ups := by
  have h := covered hv hr
  have hcov := h.covered
  have hstarted := h.books.started
  have hin := count_inside s.1.status
  unfold balance at hcov
  omega

theorem down_bound_contended : ∃ s, (orderly 0 (Fin 3)).Reach s ∧ s.1.status 1 = .woken () ∧
    s.1.status 2 = .blocked () () ∧ s.2 = ⟨3, 1, 2⟩ ∧
    s.2.returned ≤ (0 : Int32).toInt + s.2.ups := by
  obtain ⟨s, hr, -, hw, hb, -, hg⟩ := contended (L := orderly 0 (Fin 3))
    ⟨⟨rfl, fun _ => rfl⟩, rfl⟩ fun s e s' hst hmin _ => orderly_of_signalled hst hmin
  exact ⟨s, hr, hw, hb, hg, down_bound (by decide) hr⟩

/-- A thread that waits is let go by a spurious wakeup, with no unit in the semaphore. -/
theorem spurious_return : ∃ s, (recorded 0 .some Unit).Reach s ∧ s.2 = ⟨1, 1, 0⟩ := by
  have h0 : (recorded 0 .some Unit).Reach (⟨⟨0⟩, fun _ => .out ()⟩, ⟨0, 0, 0⟩) :=
    .start ⟨⟨rfl, fun _ => rfl⟩, rfl⟩
  have h1 := h0.step (step_blocks (t := ()) rfl (by decide))
  have h2 : (recorded 0 .some Unit).Reach
      (⟨⟨-1⟩, Function.update (Function.update (fun _ => .out ()) () (.blocked () ())) ()
        (.woken ())⟩, ⟨1, 0, 0⟩) :=
    .step (e := .spurious ()) h1 ⟨⟨(), (), rfl, rfl⟩, rfl⟩
  have h3 := h2.step (step_goesOn (t := ()) rfl)
  exact ⟨_, h3, rfl⟩

/-- The bound fails: where wakeups may be spurious, one `zem_down` returns without any unit. -/
theorem down_unbounded : ¬ ∀ v : Int32, 0 ≤ v → ∀ s, (recorded v .some Unit).Reach s →
    s.2.returned ≤ v.toInt + s.2.ups := by
  intro hall
  obtain ⟨s, hr, hg⟩ := spurious_return
  have hbound := hall 0 (by decide) s hr
  rw [hg] at hbound
  exact absurd hbound (by decide)

/-! ## Exact accounting -/

/-- The call leaves the counter within the range of an `int`. -/
def Fits (s : St τ × Tally) (e : Event τ Call) : Prop :=
  (∀ t, e = .enter t .up → s.1.shared.value ≠ Int32.maxValue) ∧
    ∀ t, e = .enter t .down → s.1.shared.value ≠ Int32.minValue

/-- The books are right, the counter is the balance and a negative one counts the blocked
    threads. -/
structure Exact (v : Int32) (s : St τ × Tally) : Prop where
  books : Books v s
  value : s.1.shared.value.toInt = balance v s.2
  blocked : (count blocked s.1.status : Int) = max 0 (-s.1.shared.value.toInt)

theorem Exact.step {v : Int32} {s s' : St τ × Tally} {e : Event τ Call} (h : Exact v s)
    (hst : ((signalled v τ).guard Fits).step s e s') : Exact v s' := by
  obtain ⟨hfits, hst⟩ := hst
  have hval := h.value
  have hbl := h.blocked
  have hless : ∀ t, e = .enter t .down →
      (s.1.shared.value - 1).toInt = s.1.shared.value.toInt - 1 :=
    fun t he => toInt_sub_one (hfits.2 t he)
  have hmore : ∀ t, e = .enter t .up →
      (s.1.shared.value + 1).toInt = s.1.shared.value.toInt + 1 :=
    fun t he => toInt_add_one (hfits.1 t he)
  refine ⟨h.books.step hst.2, ?_, ?_⟩
  · cases step_cases hst.2 with
    | blocks ho hneg hrun hg | passes ho hpos hrun hg =>
      rw [hrun.shared, hg, balance_down, ← hval]
      exact hless _ rfl
    | posts ho hrun hg =>
      rw [hrun.shared, hg, balance_up, ← hval]
      exact hmore _ rfl
    | goesOn hw hrun hg =>
      rw [hrun.shared, hg, balance_return]
      exact hval
    | @stirs t hb hs hg => exact absurd rfl (hst.1 t)
  · cases step_cases hst.2 with
    | blocks ho hneg hrun hg =>
      have hless := hless _ rfl
      have hlt := Int32.lt_iff_toInt_lt.mp hneg
      rw [hless, Int32.toInt_zero] at hlt
      rw [hrun.shared, hrun.quiet rfl, count_update_add (by rw [ho]; rfl) rfl]
      show ((count Zemaphore.blocked s.1.status + 1 : Nat) : Int) =
        max 0 (-(s.1.shared.value - 1).toInt)
      omega
    | passes ho hpos hrun hg =>
      have hless := hless _ rfl
      have hle : ¬ s.1.shared.value.toInt - 1 < 0 := by
        rw [← hless]
        exact fun hlt => hpos (Int32.lt_iff_toInt_lt.mpr hlt)
      rw [hrun.shared, hrun.quiet rfl, count_update_same (by rw [ho]; rfl)]
      show (count Zemaphore.blocked s.1.status : Int) = max 0 (-(s.1.shared.value - 1).toInt)
      omega
    | posts ho hrun hg =>
      have hmore := hmore _ rfl
      rw [hrun.shared]
      show (count Zemaphore.blocked s'.1.status : Int) = max 0 (-(s.1.shared.value + 1).toInt)
      rcases blocked_posts ho hrun with ⟨hzero', hzero⟩ | hone
      · omega
      · omega
    | goesOn hw hrun hg =>
      rw [hrun.shared, hrun.quiet rfl, count_update_same (by rw [hw]; rfl)]
      exact hbl
    | @stirs t hb hs hg => exact absurd rfl (hst.1 t)

/-- **The run lemma**: the counter is exact wherever calls lead that keep it in the range of an
    `int`. -/
theorem exact {v : Int32} (hv : 0 ≤ v) {s : St τ × Tally}
    (hr : ((signalled v τ).guard Fits).Reach s) : Exact v s := by
  refine hr.invariant (fun s h0 => ?_) fun s e s' h hst => h.step hst
  obtain ⟨hzero, hbal⟩ := blocked_initial h0
  have hinit : s.1.shared = zemInit v := h0.1.1
  have hpos : 0 ≤ v.toInt := Int32.le_iff_toInt_le.mp hv
  refine ⟨Books.initial h0, by rw [hinit, hbal]; rfl, ?_⟩
  rw [hzero, hinit]
  show (0 : Int) = max 0 (-v.toInt)
  omega

/-- **Exact accounting**, while no call takes the counter out of its range: a negative counter
    counts the blocked threads, the counter is what is left of the units, and those who have
    returned or been woken are as many as there are units and calls for them; so nobody is blocked
    while there are units enough, and `zem_up` wakes one. -/
theorem zemaphore_exact {v : Int32} (hv : 0 ≤ v) {s : St τ × Tally}
    (hr : ((signalled v τ).guard Fits).Reach s) :
    (count blocked s.1.status : Int) = max 0 (-s.1.shared.value.toInt) ∧
    s.1.shared.value.toInt = v.toInt + s.2.ups - s.2.started ∧
    s.2.returned + count woken s.1.status = min s.2.started (v.toInt + s.2.ups) ∧
    (s.2.started ≤ v.toInt + s.2.ups → ∀ t, s.1.status t ≠ .blocked () ()) ∧
    ∀ t s', (signalled v τ).step s (.enter t .up) s' → (∃ u, s.1.status u = .blocked () ()) →
      ∃ u, s.1.status u = .blocked () () ∧
        s'.1.status = Function.update s.1.status u (.woken ()) := by
  have h := exact hv hr
  have hbl := h.blocked
  have hval : s.1.shared.value.toInt = v.toInt + s.2.ups - s.2.started := h.value
  have hstarted := h.books.started
  have hin := count_inside s.1.status
  refine ⟨hbl, hval, by omega, fun hle t ht => ?_, fun t s' hst hw => up_wakes hst hw⟩
  have hpos := count_pos (P := Zemaphore.blocked) (f := s.1.status) (t := t) (by rw [ht]; rfl)
  omega

theorem zemaphore_exact_contended : ∃ s, ((signalled 0 (Fin 3)).guard Fits).Reach s ∧
    s.1.status 1 = .woken () ∧ s.1.status 2 = .blocked () () ∧ s.2 = ⟨3, 1, 2⟩ ∧
    (count blocked s.1.status : Int) = max 0 (-s.1.shared.value.toInt) ∧
    s.2.returned + count woken s.1.status = min s.2.started ((0 : Int32).toInt + s.2.ups) := by
  obtain ⟨s, hr, -, hw, hb, -, hg⟩ := contended (L := (signalled 0 (Fin 3)).guard Fits)
    ⟨⟨rfl, fun _ => rfl⟩, rfl⟩ fun s e s' hst hmin hmax => ⟨⟨fun _ _ => hmax, fun _ _ => hmin⟩, hst⟩
  have hexact := zemaphore_exact (by decide) hr
  exact ⟨s, hr, hw, hb, hg, hexact.1, hexact.2.2.1⟩

/-- At `INT_MAX` the accounting fails: after one `zem_up` the counter is `INT_MIN`, with nobody
    blocked. -/
theorem zemaphore_overflows : ¬ ∀ v : Int32, 0 ≤ v → ∀ s, (signalled v Unit).Reach s →
    (count blocked s.1.status : Int) = max 0 (-s.1.shared.value.toInt) ∧
    s.1.shared.value.toInt = v.toInt + s.2.ups - s.2.started := by
  intro hall
  have h0 : (signalled Int32.maxValue Unit).Reach
      (⟨⟨Int32.maxValue⟩, fun _ => .out ()⟩, ⟨0, 0, 0⟩) := .start ⟨⟨rfl, fun _ => rfl⟩, rfl⟩
  have h1 := h0.step ⟨enter_ne_spurious _ _,
    step_stores (t := ()) rfl fun ⟨u, p, hu⟩ => (by cases hu)⟩
  exact absurd (hall _ (by decide) _ h1).2 (by decide)

end OsCodes.Zemaphore
