/-
  The ring of `test-toggle.c`: three threads that print in turn, each waking the next through a
  zemaphore of its own.

  1. **The code** — A thread goes round a loop of `zem_down` on its own zemaphore, a line printed
     outside the mutex, and `zem_up` on the next thread's.  A `Phase` says where in that loop it
     is, with the number of its round, so that other threads may run between any two of the three.
     `main` creates the threads and then calls `zem_up` once; a thread not yet created is one that
     has not run, and `NUM_ITER` is an arbitrary number.

  2. **The token** — There is one.  `main` makes it, and from then on it is a unit of the zemaphore
     of the thread whose turn it is, or that thread has taken it and not yet passed it on
     (`Holding`); the other threads are idle (`Idle`).  Each step of the ring keeps this (`Inv`).

  3. **What follows** — The output is the ring's order, since a thread prints while it holds the
     token; one thread at a time is between its `zem_down` and its `zem_up`; and the ring does not
     stop before its threads have finished, since the holder of the token is never blocked and an
     idle thread without a round left is not either.
-/
import OsCodes.Sync.Zemaphore

namespace OsCodes.Toggle

open Monitor Zemaphore

/-! ## The code -/

/-- `main`, and the three threads that print in turns. -/
inductive Thread
  | main
  | toggle (id : Fin 3)
  deriving DecidableEq

/-- The zemaphores, and the threads that have printed. -/
structure Shared where
  zema : Fin 3 → Zem
  printed : List (Fin 3)

/-- Where a thread is outside the zemaphores: at the head of the loop, between `zem_down` and the
    line it prints, before its `zem_up`, or at its end; `main` is before its `zem_up` or past it. -/
inductive Phase
  | loop (i : Nat)
  | print (i : Nat)
  | up (i : Nat)
  | post
  | finished

abbrev Turns := Stretch Shared Phase (Fin 3) Nat

/-- A stretch on one of the zemaphores. -/
def onZema (s : Shared) (j : Fin 3) (x : Stretch Zem Phase (Fin 3) Nat) : Turns :=
  ⟨{ s with zema := Function.update s.zema j x.shared }, x.notify, x.next⟩

/-- `justprint`, from its place in the loop. -/
def justprint (numIter : Nat) (id : Fin 3) (s : Shared) : Phase → Turns
  | .loop i =>
    if i < numIter then onZema s id (zemDown id i (.print i) (s.zema id))
    else ⟨s, [], .leave .finished⟩
  | .print i => ⟨{ s with printed := s.printed ++ [id] }, [], .leave (.up i)⟩
  | .up i => onZema s (id + 1) (zemUp (id + 1) (.loop (i + 1)) (s.zema (id + 1)))
  | p => ⟨s, [], .leave p⟩

/-- Three threads print in turn, and `main` lets the first one go; a thread moves on by itself where
    it does not wait. -/
def code (numIter : Nat) : Code Shared Thread Phase (Fin 3) Nat Unit where
  may t p _ := match t, p with
    | .main, .post => True
    | .toggle _, .loop _ => True
    | .toggle _, .print _ => True
    | .toggle _, .up _ => True
    | _, _ => False
  enter _ t p s := match t with
    | .main => onZema s 0 (zemUp 0 .finished (s.zema 0))
    | .toggle id => justprint numIter id s p
  resume i t s := match t with
    | .main => ⟨s, [], .leave .finished⟩
    | .toggle id => onZema s id (zemDownWoken (.print i) (s.zema id))

abbrev St := State Shared Thread Phase (Fin 3) Nat

/-- `main` has initialised the zemaphores and not yet called `zem_up`; a thread that it has not yet
    created is one that has not run. -/
def start (s : St) : Prop :=
  s.shared = ⟨fun _ => zemInit 0, []⟩ ∧ s.status .main = .out .post ∧
    ∀ id, s.status (.toggle id) = .out (.loop 0)

/-- The ring, where a signal wakes one waiter and nothing else wakes any. -/
def toggle (numIter : Nat) : Lts St (Event Thread Unit) :=
  (system (code numIter) .one start).guard fun _ e => ∀ t, e ≠ .spurious t

/-! ## Turns -/

/-- The first `r` threads of 0, 1, 2, 0, 1, 2, ... -/
def ring (r : Nat) : List (Fin 3) := (List.range r).map fun k => Fin.ofNat 3 k

/-- The thread whose turn it is after `r` turns. -/
def turn (r : Nat) : Fin 3 := Fin.ofNat 3 r

/-- How many of the first `r` turns are `id`'s. -/
def rounds (id : Fin 3) (r : Nat) : Nat := (r + 2 - id.val) / 3

theorem ring_succ (r : Nat) : ring (r + 1) = ring r ++ [turn r] := by
  rw [ring, List.range_succ, List.map_append]
  rfl

theorem turn_succ (r : Nat) : turn (r + 1) = turn r + 1 := by
  apply Fin.ext
  show (r + 1) % 3 = (r % 3 + 1 % 3) % 3
  omega

theorem rounds_turn (r : Nat) : rounds (turn r) (r + 1) = rounds (turn r) r + 1 := by
  show (r + 1 + 2 - r % 3) / 3 = (r + 2 - r % 3) / 3 + 1
  omega

theorem rounds_other {r : Nat} {id : Fin 3} (h : id ≠ turn r) :
    rounds id (r + 1) = rounds id r := by
  have hne : id.val ≠ r % 3 := fun heq => h (Fin.ext heq)
  have hlt := id.isLt
  show (r + 1 + 2 - id.val) / 3 = (r + 2 - id.val) / 3
  omega

/-- Where the thread whose turn it is has been round `n` times, the threads before it have been
    round once more and those after it as often. -/
theorem rounds_le {r : Nat} (id : Fin 3) : rounds (turn r) r ≤ rounds id r := by
  have hlt := id.isLt
  show (r + 2 - r % 3) / 3 ≤ (r + 2 - id.val) / 3
  omega

/-- A thread without the token, before its round `i`. -/
inductive Idle (numIter : Nat) (id : Fin 3) : Status Phase (Fin 3) Nat → Int32 → Nat → Prop
  | ready {i : Nat} : i ≤ numIter → Idle numIter id (.out (.loop i)) 0 i
  | blocked {i : Nat} : i < numIter → Idle numIter id (.blocked id i) (-1) i
  | finished : Idle numIter id (.out .finished) 0 numIter

/-- The thread whose turn it is, before it has printed in round `i`. -/
inductive Holding (numIter : Nat) : Status Phase (Fin 3) Nat → Int32 → Nat → Prop
  | unit {i : Nat} : i ≤ numIter → Holding numIter (.out (.loop i)) 1 i
  | finished : Holding numIter (.out .finished) 1 numIter
  | woken {i : Nat} : i < numIter → Holding numIter (.woken i) 0 i
  | print {i : Nat} : i < numIter → Holding numIter (.out (.print i)) 0 i

/-- Thread `id` is as `P` says, with the value of its zemaphore. -/
def At (s : St) (id : Fin 3) (P : Status Phase (Fin 3) Nat → Int32 → Nat → Prop) (i : Nat) : Prop :=
  P (s.status (.toggle id)) (s.shared.zema id).value i

/-- Where the token is after `r` turns. -/
inductive Inv (numIter : Nat) (s : St) : Prop
  | unborn : s.status .main = .out .post → s.shared.printed = [] →
      (∀ id, At s id (Idle numIter id) 0) → Inv numIter s
  | held (r : Nat) : s.status .main = .out .finished → s.shared.printed = ring r →
      At s (turn r) (Holding numIter) (rounds (turn r) r) →
      (∀ id, id ≠ turn r → At s id (Idle numIter id) (rounds id r)) → Inv numIter s
  | passing (r : Nat) : s.status .main = .out .finished → s.shared.printed = ring (r + 1) →
      s.status (.toggle (turn r)) = .out (.up (rounds (turn r) r)) →
      (s.shared.zema (turn r)).value = 0 → rounds (turn r) r < numIter →
      (∀ id, id ≠ turn r → At s id (Idle numIter id) (rounds id r)) → Inv numIter s

/-! ## Steps -/

section Steps

variable {numIter : Nat} {s s' : St} {id : Fin 3} {i : Nat}

/-- Nothing but thread `id` and its zemaphore changes. -/
structure Only (id : Fin 3) (s s' : St) : Prop where
  status : ∀ {u}, u ≠ .toggle id → s'.status u = s.status u
  zema : ∀ {j}, j ≠ id → s'.shared.zema j = s.shared.zema j

theorem At.of_eq {P : Status Phase (Fin 3) Nat → Int32 → Nat → Prop} (h : At s id P i)
    (hst : s'.status (.toggle id) = s.status (.toggle id))
    (hz : s'.shared.zema id = s.shared.zema id) : At s' id P i := by
  rw [At, hst, hz]
  exact h

theorem Only.at {P : Status Phase (Fin 3) Nat → Int32 → Nat → Prop} (ho : Only id s s') {j : Fin 3}
    (hj : j ≠ id) (h : At s j P i) : At s' j P i :=
  h.of_eq (ho.status fun heq => hj (Thread.toggle.inj heq)) (ho.zema hj)

/-- A stretch of thread `id` on its own zemaphore, without a signal. -/
theorem only_onZema {x : Stretch Zem Phase (Fin 3) Nat} (hx : x.notify = [])
    (hrun : Runs .one (.toggle id) (onZema s.shared id x) s s') : Only id s s' := by
  refine ⟨fun {u} hu => ?_, fun {j} hj => ?_⟩
  · rw [hrun.quiet hx, Function.update_of_ne hu]
  · rw [hrun.shared]
    exact Function.update_of_ne hj _ _

/-- A stretch of thread `id` that leaves the zemaphores alone. -/
theorem only_quiet {x : Turns} (hx : x.notify = []) (hz : x.shared.zema = s.shared.zema)
    (hrun : Runs .one (.toggle id) x s s') : Only id s s' := by
  refine ⟨fun {u} hu => ?_, fun {j} _ => ?_⟩
  · rw [hrun.quiet hx, Function.update_of_ne hu]
  · rw [hrun.shared, hz]

/-- Where such a stretch leaves thread `id`. -/
theorem at_onZema {P : Status Phase (Fin 3) Nat → Int32 → Nat → Prop}
    {x : Stretch Zem Phase (Fin 3) Nat} (hrun : Runs .one (.toggle id) (onZema s.shared id x) s s')
    (h : P x.next.status x.shared.value i) : At s' id P i := by
  rw [At, hrun.self, hrun.shared]
  show P x.next.status (Function.update s.shared.zema id x.shared id).value i
  rw [Function.update_self]
  exact h

/-- A thread that has returned leaves its round. -/
theorem at_finished {P : Status Phase (Fin 3) Nat → Int32 → Nat → Prop} {v : Int32}
    (hrun : Runs .one (.toggle id) ⟨s.shared, [], .leave .finished⟩ s s')
    (hv : (s.shared.zema id).value = v) (h : P (.out .finished) v i) : At s' id P i := by
  rw [At, hrun.self, hrun.shared]
  show P (.out .finished) (s.shared.zema id).value i
  rw [hv]
  exact h

/-- **An idle thread** stays idle: it goes to wait, or ends. -/
theorem idle_enter (h : At s id (Idle numIter id) i) {p : Phase}
    (hp : s.status (.toggle id) = .out p) (hmay : (code numIter).may (.toggle id) p ())
    (hrun : Runs .one (.toggle id) (justprint numIter id s.shared p) s s') :
    At s' id (Idle numIter id) i ∧ s'.shared.printed = s.shared.printed ∧ Only id s s' := by
  unfold At at h
  generalize hst : s.status (.toggle id) = st at h
  generalize hv : (s.shared.zema id).value = v at h
  rw [hst] at hp
  cases h with
  | ready hi =>
    cases hp
    by_cases hlt : i < numIter
    · have hval : (s.shared.zema id).value - 1 = -1 := by rw [hv]; rfl
      have hneg : (s.shared.zema id).value - 1 < 0 := by rw [hval]; decide
      rw [justprint, if_pos hlt, zemDown, if_pos hneg] at hrun
      refine ⟨at_onZema hrun ?_, by rw [hrun.shared]; rfl, only_onZema rfl hrun⟩
      show Idle numIter id (.blocked id i) ((s.shared.zema id).value - 1) i
      rw [hval]
      exact .blocked hlt
    · have hend : i = numIter := by omega
      rw [justprint, if_neg hlt] at hrun
      refine ⟨at_finished hrun hv ?_, by rw [hrun.shared], only_quiet rfl rfl hrun⟩
      rw [hend]
      exact .finished
  | blocked => cases hp
  | finished =>
    cases hp
    cases hmay

/-- **The thread with the token** takes the unit, or prints, or ends. -/
theorem holding_enter (h : At s id (Holding numIter) i) {p : Phase}
    (hp : s.status (.toggle id) = .out p) (hmay : (code numIter).may (.toggle id) p ())
    (hrun : Runs .one (.toggle id) (justprint numIter id s.shared p) s s') :
    (At s' id (Holding numIter) i ∧ s'.shared.printed = s.shared.printed ∨
      s'.status (.toggle id) = .out (.up i) ∧ (s'.shared.zema id).value = 0 ∧ i < numIter ∧
        s'.shared.printed = s.shared.printed ++ [id]) ∧ Only id s s' := by
  unfold At at h
  generalize hst : s.status (.toggle id) = st at h
  generalize hv : (s.shared.zema id).value = v at h
  rw [hst] at hp
  cases h with
  | unit hi =>
    cases hp
    by_cases hlt : i < numIter
    · have hval : (s.shared.zema id).value - 1 = 0 := by rw [hv]; rfl
      have hpos : ¬ (s.shared.zema id).value - 1 < 0 := by rw [hval]; decide
      rw [justprint, if_pos hlt, zemDown, if_neg hpos] at hrun
      refine ⟨.inl ⟨at_onZema hrun ?_, by rw [hrun.shared]; rfl⟩, only_onZema rfl hrun⟩
      show Holding numIter (.out (.print i)) ((s.shared.zema id).value - 1) i
      rw [hval]
      exact .print hlt
    · have hend : i = numIter := by omega
      rw [justprint, if_neg hlt] at hrun
      refine ⟨.inl ⟨at_finished hrun hv ?_, by rw [hrun.shared]⟩, only_quiet rfl rfl hrun⟩
      rw [hend]
      exact .finished
  | finished =>
    cases hp
    cases hmay
  | woken => cases hp
  | print hlt =>
    cases hp
    rw [justprint] at hrun
    exact ⟨.inr ⟨hrun.self, by rw [hrun.shared]; exact hv, hlt, by rw [hrun.shared]⟩,
      only_quiet rfl rfl hrun⟩

/-- **The token is passed on**: a unit for an idle thread, or the wakeup that it waits for. -/
theorem grant {j : Fin 3} {t : Thread} {p : Phase}
    (hrun : Runs .one t (onZema s.shared j (zemUp j p (s.shared.zema j))) s s')
    (ht : t ≠ .toggle j) (hown : ∀ {u c q}, s.status u = .blocked c q → u = .toggle c)
    (h : At s j (Idle numIter j) i) :
    At s' j (Holding numIter) i ∧ (∀ u, u ≠ t → u ≠ .toggle j → s'.status u = s.status u) ∧
      ∀ k, k ≠ j → s'.shared.zema k = s.shared.zema k := by
  have hvalue : (s'.shared.zema j).value = (s.shared.zema j).value + 1 := by
    rw [hrun.shared]
    show (Function.update s.shared.zema j _ j).value = _
    rw [Function.update_self]
    rfl
  have hzema : ∀ k, k ≠ j → s'.shared.zema k = s.shared.zema k := by
    intro k hk
    rw [hrun.shared]
    exact Function.update_of_ne hk _ _
  unfold At at h ⊢
  rw [hvalue]
  rcases hrun.signal_one rfl with ⟨hno, hs⟩ | ⟨u, q, hu, hs⟩
  · have hj : s'.status (.toggle j) = s.status (.toggle j) := by
      rw [hs, Function.update_of_ne ht.symm]
    refine ⟨?_, fun u hut _ => by rw [hs, Function.update_of_ne hut], hzema⟩
    rw [hj]
    generalize hst : s.status (.toggle j) = st at h ⊢
    generalize (s.shared.zema j).value = v at h ⊢
    cases h with
    | ready hi => exact .unit hi
    | blocked => exact absurd ⟨_, _, hst⟩ hno
    | finished => exact .finished
  · obtain rfl := hown hu
    have hj : s'.status (.toggle j) = .woken q := by
      rw [hs, Function.update_of_ne ht.symm, Function.update_self]
    refine ⟨?_, fun u hut huj => ?_, hzema⟩
    · rw [hj]
      rw [hu] at h
      generalize (s.shared.zema j).value = v at h ⊢
      cases h with
      | blocked hi => exact .woken hi
    · rw [hs, Function.update_of_ne hut, Function.update_of_ne huj]

end Steps

/-! ## The token -/

section Token

variable {numIter : Nat} {s s' : St}

/-- An idle thread is blocked on its own zemaphore only. -/
theorem Idle.own {id : Fin 3} {st : Status Phase (Fin 3) Nat} {v : Int32} {i : Nat}
    (h : Idle numIter id st v i) {c : Fin 3} {q : Nat} (hb : st = .blocked c q) : c = id := by
  cases h with
  | ready | finished => cases hb
  | blocked => cases hb; rfl

theorem Inv.own (h : Inv numIter s) {u : Thread} {c : Fin 3} {q : Nat}
    (hb : s.status u = .blocked c q) : u = .toggle c := by
  cases u with
  | main =>
    cases h with
    | unborn hm | held r hm | passing r hm =>
      rw [hm] at hb
      cases hb
  | toggle id =>
    cases h with
    | unborn _ _ hidle => rw [(hidle id).own hb]
    | held r _ _ hhold hidle =>
      by_cases hid : id = turn r
      · rw [hid] at hb
        unfold At at hhold
        rw [hb] at hhold
        cases hhold
      · rw [(hidle id hid).own hb]
    | passing r _ _ hup _ _ hidle =>
      by_cases hid : id = turn r
      · rw [hid, hup] at hb
        cases hb
      · rw [(hidle id hid).own hb]

/-- `main` makes the token. -/
theorem Inv.main (h : Inv numIter s) {p : Phase} (hp : s.status .main = .out p)
    (hmay : (code numIter).may .main p ())
    (hrun : Runs .one .main (onZema s.shared 0 (zemUp 0 .finished (s.shared.zema 0))) s s') :
    Inv numIter s' := by
  have hpost : p = .post := by
    cases p with
    | post => rfl
    | loop | print | up | finished => cases hmay
  rw [hpost] at hp
  have hown : ∀ {u c q}, s.status u = .blocked c q → u = .toggle c := fun hb => h.own hb
  cases h with
  | unborn _ hprinted hidle =>
    have hne : Thread.main ≠ .toggle 0 := by decide
    obtain ⟨hhold, hst, hz⟩ := grant hrun hne hown (hidle 0)
    refine .held 0 hrun.self ?_ hhold fun id hid => ?_
    · rw [hrun.shared]
      exact hprinted
    · have hround : rounds id 0 = 0 := by
        have hlt := id.isLt
        have hpos : id.val ≠ 0 := fun heq => hid (Fin.ext heq)
        show (0 + 2 - id.val) / 3 = 0
        omega
      have hmain : Thread.toggle id ≠ .main := by
        intro heq
        cases heq
      rw [hround]
      exact (hidle id).of_eq (hst _ hmain fun heq => hid (Thread.toggle.inj heq)) (hz id hid)
  | held r hm | passing r hm =>
    rw [hm] at hp
    cases hp

/-- A thread of the ring runs the next piece of its loop. -/
theorem Inv.enter (h : Inv numIter s) {id : Fin 3} {p : Phase}
    (hp : s.status (.toggle id) = .out p) (hmay : (code numIter).may (.toggle id) p ())
    (hrun : Runs .one (.toggle id) (justprint numIter id s.shared p) s s') : Inv numIter s' := by
  have hmain : Thread.main ≠ .toggle id := by
    intro heq
    cases heq
  have hown : ∀ {u c q}, s.status u = .blocked c q → u = .toggle c := fun hb => h.own hb
  cases h with
  | unborn hm hprinted hidle =>
    obtain ⟨hat, hsame, honly⟩ := idle_enter (hidle id) hp hmay hrun
    refine .unborn (by rw [honly.status hmain, hm]) (by rw [hsame, hprinted]) fun j => ?_
    by_cases hj : j = id
    · rw [hj]
      exact hat
    · exact honly.at hj (hidle j)
  | held r hm hprinted hhold hidle =>
    by_cases hid : id = turn r
    · rw [← hid] at hhold
      obtain ⟨hcase, honly⟩ := holding_enter hhold hp hmay hrun
      have hothers : ∀ j, j ≠ turn r → At s' j (Idle numIter j) (rounds j r) :=
        fun j hj => honly.at (hid ▸ hj) (hidle j hj)
      have hm' : s'.status .main = .out .finished := by rw [honly.status hmain, hm]
      rcases hcase with ⟨hat, hsame⟩ | ⟨hup, hzero, hlt, hnew⟩
      · refine .held r hm' (by rw [hsame, hprinted]) ?_ hothers
        rw [← hid]
        exact hat
      · rw [hid] at hup hzero hlt hnew
        refine .passing r hm' ?_ hup hzero hlt hothers
        rw [hnew, hprinted, ring_succ]
    · obtain ⟨hat, hsame, honly⟩ := idle_enter (hidle id hid) hp hmay hrun
      refine .held r (by rw [honly.status hmain, hm]) (by rw [hsame, hprinted])
        (honly.at (Ne.symm hid) hhold) fun j hj => ?_
      by_cases hji : j = id
      · rw [hji]
        exact hat
      · exact honly.at hji (hidle j hj)
  | passing r hm hprinted hup hzero hlt hidle =>
    by_cases hid : id = turn r
    · -- the token goes to the next thread
      rw [hid] at hp hrun
      rw [hup] at hp
      cases hp
      have hnext : turn r + 1 ≠ turn r := by
        intro heq
        have hval := congrArg Fin.val heq
        have hmod : (r % 3 + 1 % 3) % 3 = r % 3 := hval
        omega
      have hne : Thread.toggle (turn r) ≠ .toggle (turn r + 1) :=
        fun heq => hnext (Thread.toggle.inj heq).symm
      obtain ⟨hhold, hst, hz⟩ := grant hrun hne hown (hidle _ hnext)
      refine .held (r + 1) (by
        rw [hst _ (by rw [← hid]; exact hmain) (by intro heq; cases heq), hm])
        (by rw [hrun.shared]; exact hprinted) ?_ fun j hj => ?_
      · rw [turn_succ, rounds_other hnext]
        exact hhold
      · rw [turn_succ] at hj
        by_cases hjr : j = turn r
        · rw [hjr, rounds_turn, At, hrun.self, hz _ hnext.symm, hzero]
          exact .ready hlt
        · rw [rounds_other hjr]
          exact (hidle j hjr).of_eq (hst _ (fun heq => hjr (Thread.toggle.inj heq))
            fun heq => hj (Thread.toggle.inj heq)) (hz j hj)
    · obtain ⟨hat, hsame, honly⟩ := idle_enter (hidle id hid) hp hmay hrun
      have hturn : Thread.toggle (turn r) ≠ .toggle id :=
        fun heq => hid (Thread.toggle.inj heq).symm
      refine .passing r (by rw [honly.status hmain, hm]) (by rw [hsame, hprinted])
        (by rw [honly.status hturn, hup]) (by rw [honly.zema (Ne.symm hid), hzero]) hlt
        fun j hj => ?_
      by_cases hji : j = id
      · rw [hji]
        exact hat
      · exact honly.at hji (hidle j hj)

/-- A woken thread returns from `zem_down`. -/
theorem Inv.resume (h : Inv numIter s) {id : Fin 3} {i : Nat}
    (hw : s.status (.toggle id) = .woken i)
    (hrun : Runs .one (.toggle id) (onZema s.shared id (zemDownWoken (.print i) (s.shared.zema id)))
      s s') : Inv numIter s' := by
  -- an idle thread has not been woken
  have hno : ∀ {n}, ¬ At s id (Idle numIter id) n := by
    intro n hidle
    unfold At at hidle
    rw [hw] at hidle
    cases hidle
  have honly := only_onZema rfl hrun
  cases h with
  | unborn _ _ hidle => exact absurd (hidle id) hno
  | held r hm hprinted hhold hidle =>
    by_cases hid : id = turn r
    · have hmain : Thread.main ≠ .toggle id := by
        intro heq
        cases heq
      refine .held r (by rw [honly.status hmain, hm]) (by rw [hrun.shared]; exact hprinted) ?_
        fun j hj => honly.at (hid ▸ hj) (hidle j hj)
      rw [← hid] at hhold ⊢
      apply at_onZema hrun
      unfold At at hhold
      rw [hw] at hhold
      generalize hv : (s.shared.zema id).value = v at hhold
      show Holding numIter (.out (.print i)) (s.shared.zema id).value _
      rw [hv]
      cases hhold with
      | woken hlt => exact .print hlt
    · exact absurd (hidle id hid) hno
  | passing r hm hprinted hup hzero hlt hidle =>
    by_cases hid : id = turn r
    · rw [hid, hup] at hw
      cases hw
    · exact absurd (hidle id hid) hno

/-- **The step lemma**: the one token moves on with each step, or stays where it is. -/
theorem Inv.step (h : Inv numIter s) {e : Event Thread Unit} (hst : (toggle numIter).step s e s') :
    Inv numIter s' := by
  obtain ⟨hok, hst⟩ := hst
  cases e with
  | enter t f =>
    obtain ⟨p, hp, hmay, hrun⟩ := hst
    cases t with
    | main => exact h.main hp hmay hrun
    | toggle id => exact h.enter hp hmay hrun
  | resume t =>
    obtain ⟨i, hw, hrun⟩ := hst
    cases t with
    | main =>
      cases h with
      | unborn hm | held r hm | passing r hm =>
        rw [hm] at hw
        cases hw
    | toggle id => exact h.resume hw hrun
  | spurious t => exact absurd rfl (hok t)

/-- **The run lemma**: there is one token in every state, or `main` has still to make it. -/
theorem inv (hr : (toggle numIter).Reach s) : Inv numIter s := by
  refine hr.invariant (fun s h0 => ?_) fun s e s' h hst => h.step hst
  obtain ⟨hs, hm, hout⟩ := h0
  refine .unborn hm (by rw [hs]) fun id => ?_
  rw [At, hout id, hs]
  exact .ready (Nat.zero_le _)

end Token

/-! ## The ring -/

section Ring

variable {numIter : Nat} {s : St}

/-- The thread is between its `zem_down` and its `zem_up`. -/
def Between : Status Phase (Fin 3) Nat → Prop
  | .out (.print _) | .out (.up _) => True
  | _ => False

theorem Idle.not_between {id : Fin 3} {st : Status Phase (Fin 3) Nat} {v : Int32} {i : Nat}
    (h : Idle numIter id st v i) : ¬ Between st := by
  cases h with
  | ready | blocked | finished => exact fun hb => hb

/-- Only the thread whose turn it is can be between. -/
theorem Inv.between (h : Inv numIter s) : ∃ r, ∀ id, Between (s.status (.toggle id)) →
    id = turn r := by
  cases h with
  | unborn _ _ hidle => exact ⟨0, fun id hb => absurd hb (hidle id).not_between⟩
  | held r _ _ _ hidle | passing r _ _ _ _ _ hidle =>
    refine ⟨r, fun id hb => ?_⟩
    by_contra hid
    exact (hidle id hid).not_between hb

theorem ring_length (r : Nat) : (ring r).length = r := by
  rw [ring, List.length_map, List.length_range]

theorem Inv.printed (h : Inv numIter s) : s.shared.printed = ring s.shared.printed.length := by
  cases h with
  | unborn _ hp =>
    rw [hp]
    rfl
  | held r _ hp | passing r _ hp => rw [hp, ring_length]

theorem can_enter {t : Thread} {p : Phase} (hp : s.status t = .out p)
    (hmay : (code numIter).may t p ()) : ∃ e s', (toggle numIter).step s e s' := by
  obtain ⟨s', hrun⟩ := exists_runs .one t ((code numIter).enter () t p s.shared) s
  exact ⟨.enter t (), s', fun t ht => (by cases ht), p, hp, hmay, hrun⟩

theorem can_resume {t : Thread} {i : Nat} (hw : s.status t = .woken i) :
    ∃ e s', (toggle numIter).step s e s' := by
  obtain ⟨s', hrun⟩ := exists_runs .one t ((code numIter).resume i t s.shared) s
  exact ⟨.resume t, s', fun t ht => (by cases ht), i, hw, hrun⟩

/-- An idle thread that has not finished can go on, if it has no round left. -/
theorem Idle.can_step {id : Fin 3} (h : At s id (Idle numIter id) numIter)
    (hne : s.status (.toggle id) ≠ .out .finished) : ∃ e s', (toggle numIter).step s e s' := by
  unfold At at h
  generalize hst : s.status (.toggle id) = st at h hne
  generalize (s.shared.zema id).value = v at h
  cases h with
  | ready => exact can_enter hst trivial
  | blocked hlt => exact absurd hlt (Nat.lt_irrefl _)
  | finished => exact absurd rfl hne

/-- How many rounds an idle thread has been through. -/
theorem Idle.le {id : Fin 3} {st : Status Phase (Fin 3) Nat} {v : Int32} {i : Nat}
    (h : Idle numIter id st v i) : i ≤ numIter := by
  cases h with
  | ready hi => exact hi
  | blocked hlt => exact Nat.le_of_lt hlt
  | finished => exact Nat.le_refl _

/-- **The ring does not stop** before its threads have finished. -/
theorem Inv.progress (h : Inv numIter s) (hmain : s.status .main ≠ .out .post)
    (hex : ∃ id, s.status (.toggle id) ≠ .out .finished) :
    ∃ e s', (toggle numIter).step s e s' := by
  obtain ⟨id, hid⟩ := hex
  cases h with
  | unborn hm => exact absurd hm hmain
  | passing r _ _ hup => exact can_enter hup trivial
  | held r hm hprinted hhold hidle =>
    unfold At at hhold
    generalize hst : s.status (.toggle (turn r)) = st at hhold
    generalize (s.shared.zema (turn r)).value = v at hhold
    generalize hround : rounds (turn r) r = i at hhold
    cases hhold with
    | unit hi => exact can_enter hst trivial
    | woken hlt => exact can_resume hst
    | print hlt => exact can_enter hst trivial
    | finished =>
      -- the last turn is over: nobody has a round left, so nobody is blocked
      have hne : id ≠ turn r := by
        intro heq
        rw [heq, hst] at hid
        exact hid rfl
      have hall := hidle id hne
      have hle := rounds_le (r := r) id
      have hge := Idle.le hall
      have hend : rounds id r = numIter := by omega
      rw [hend] at hall
      exact Idle.can_step hall hid

/-- **The ring**: the threads print in turn, one at a time is between its `zem_down` and its
    `zem_up`, and after `main`'s `zem_up` some thread can go on until all have finished. -/
theorem toggle_ring {numIter : Nat} {s : St} (hr : (toggle numIter).Reach s) :
    s.shared.printed = ring s.shared.printed.length ∧
    (∀ id id', Between (s.status (.toggle id)) → Between (s.status (.toggle id')) → id = id') ∧
    (s.status .main ≠ .out .post → (∃ id, s.status (.toggle id) ≠ .out .finished) →
      ∃ e s', (toggle numIter).step s e s') := by
  have h := inv hr
  obtain ⟨r, hone⟩ := h.between
  refine ⟨h.printed, fun id id' hb hb' => ?_, h.progress⟩
  rw [hone id hb, hone id' hb']

/-- The thread waits on `c`. -/
def awaits (c : Fin 3) : Status Phase (Fin 3) Nat → Bool
  | .blocked d _ => decide (d = c)
  | _ => false

/-- Nobody waits on `c` if each thread is elsewhere. -/
theorem not_waiting {st : Thread → Status Phase (Fin 3) Nat} {c : Fin 3}
    (hm : awaits c (st .main) = false) (h0 : awaits c (st (.toggle 0)) = false)
    (h1 : awaits c (st (.toggle 1)) = false) (h2 : awaits c (st (.toggle 2)) = false) :
    ¬ Waiting st c := by
  have hwaits : ∀ {t p}, st t = .blocked c p → awaits c (st t) = true := by
    intro t p ht
    rw [ht]
    exact decide_eq_true rfl
  rintro ⟨t, p, ht⟩
  have hself := hwaits ht
  match t with
  | .main => exact absurd (hm.symm.trans hself) Bool.false_ne_true
  | .toggle 0 => exact absurd (h0.symm.trans hself) Bool.false_ne_true
  | .toggle 1 => exact absurd (h1.symm.trans hself) Bool.false_ne_true
  | .toggle 2 => exact absurd (h2.symm.trans hself) Bool.false_ne_true

/-- A run of three turns: thread 1 is blocked before `main` makes the token, thread 0 prints and
    wakes it, thread 1 prints, and thread 2 finds the unit that it has left. -/
theorem toggle_ring_turns : ∃ s : St, (toggle 2).Reach s ∧ s.shared.printed = [0, 1, 2] ∧
    s.shared.printed = ring s.shared.printed.length ∧ ∃ e s', (toggle 2).step s e s' := by
  have hok : ∀ t u : Thread, (Event.enter t () : Event Thread Unit) ≠ .spurious u :=
    fun t u hu => by cases hu
  have hok' : ∀ t u : Thread, (Event.resume t : Event Thread Unit) ≠ .spurious u :=
    fun t u hu => by cases hu
  have h0 : (toggle 2).Reach ⟨⟨fun _ => ⟨0⟩, []⟩,
      fun | .main => .out .post | .toggle _ => .out (.loop 0)⟩ := .start ⟨rfl, rfl, fun _ => rfl⟩
  have h1 := reach_enter_guard (Thread.toggle 1) () h0 (hok _) rfl trivial rfl
  have h2 := reach_enter_guard Thread.main () h1 (hok _) rfl trivial
    (notified_nobody (not_waiting rfl rfl rfl rfl))
  have h3 := reach_enter_guard (Thread.toggle 0) () h2 (hok _) rfl trivial rfl
  have h4 := reach_enter_guard (Thread.toggle 0) () h3 (hok _) rfl trivial rfl
  have h5 := reach_enter_guard (Thread.toggle 0) () h4 (hok _) rfl trivial
    (notified_signal (t := .toggle 1) rfl)
  have h6 := reach_resume_guard (Thread.toggle 1) h5 (hok' _) rfl rfl
  have h7 := reach_enter_guard (Thread.toggle 1) () h6 (hok _) rfl trivial rfl
  have h8 := reach_enter_guard (Thread.toggle 1) () h7 (hok _) rfl trivial
    (notified_nobody (not_waiting rfl rfl rfl rfl))
  have h9 := reach_enter_guard (Thread.toggle 2) () h8 (hok _) rfl trivial rfl
  have h10 := reach_enter_guard (Thread.toggle 2) () h9 (hok _) rfl trivial rfl
  obtain ⟨hprinted, -, hprogress⟩ := toggle_ring h10
  exact ⟨_, h10, rfl, hprinted, hprogress (fun hm => by cases hm) ⟨0, fun hf => by cases hf⟩⟩

end Ring

end OsCodes.Toggle
