/-
  The weighted round robin of xv6-public on one processor.

  An event says what the processes and the interrupts do to the table until control is back in
  `scheduler`.  A record counts the passes and the dispatches, and lists the processes that have
  had the dispatches they need, in the order in which they had the last one.

  The threshold falls by ten in each of the 101 passes of a cycle, so a process of level `a` is
  dispatched in the last `a + 1` of them.  `served a m` is what it has had after `m` passes;
  a higher level is ahead wherever a lower one has just been dispatched (`due_le_served`).

  1. `step` is one turn of the inner loop: it passes over a slot, switches to a process, or ends
     the pass and lowers the threshold by ten, from 0 back to 1000;
  2. `served` and `due` are the schedule that this amounts to, as functions of the pass and the
     slot; their lemmas are about numbers only;
  3. `Inv` says that every process that still needs dispatches has had exactly those that are due,
     and `Inv.step` that an event keeps this, whatever happens to the other processes;
  4. `service_law` reads off the cycles, the ends of passes and the order in which processes are
     done.

  Timer interrupts are events like any other: what a dispatch costs is not measured, as in the
  source, where a process gives up the processor at every tick.
-/
import OsCodes.Xv6.Ptable

namespace OsCodes.Sched

open Ptable

/-! ## The code -/

/-- `prio_check`, the table, and `p` as an index, which is `NPROC` when the loop ends. -/
structure State where
  prioCheck : Int
  ptable : Table
  p : Nat

/-- The loop does not `continue`. -/
def picks (prioCheck : Int) (p : Proc) : Bool := !(p.state ≠ .runnable || p.prio < prioCheck)

/-- The process that the loop switches to. -/
def dispatched (s : State) : Option Slot :=
  if h : s.p < NPROC then if picks s.prioCheck (s.ptable ⟨s.p, h⟩) then some ⟨s.p, h⟩ else none
  else none

/-- What `scheduler` writes into the chosen process. -/
def chosen (p : Proc) : Proc := { p with state := .running, inctxt := p.inctxt + 1 }

/-- The table when control leaves the loop. -/
def handed (s : State) : Table :=
  match dispatched s with
  | some i => Function.update s.ptable i (chosen (s.ptable i))
  | none => s.ptable

/-- One turn of the inner loop of `scheduler`, or the end of a pass.  `f` is what happens to the
    table before control comes back. -/
def step (s : State) (f : Table → Table) : State :=
  if s.p < NPROC then
    match dispatched s with
    | some _ => { s with ptable := f (handed s), p := s.p + 1 }
    | none => { s with p := s.p + 1 }
  else
    { prioCheck := if s.prioCheck - 10 < 0 then 1000 else s.prioCheck - 10
      ptable := f (handed s)
      p := 0 }

/-! ## Service -/

/-- A priority, as the scheduler tells it from others. -/
def level (prio : Int) : Nat := (min (prio / 10) 100).toNat

/-- Pass `m` dispatches the processes of level `a`. -/
def Serves (a m : Nat) : Prop := 100 - a ≤ m % 101

instance (a m : Nat) : Decidable (Serves a m) := inferInstanceAs (Decidable (_ ≤ _))

/-- The passes before pass `m` that dispatch the processes of level `a`. -/
def served (a m : Nat) : Nat := m / 101 * (a + 1) + (m % 101 - (100 - a))

theorem level_le (prio : Int) : level prio ≤ 100 := by unfold level; omega

theorem level_mono {x y : Int} (h : x ≤ y) : level x ≤ level y := by
  have : x / 10 ≤ y / 10 := Int.ediv_le_ediv (by decide) h
  unfold level
  omega

@[simp] theorem served_zero (a : Nat) : served a 0 = 0 := by simp [served]

/-- A full cycle serves level `a` in `a + 1` passes. -/
theorem served_cycle (a m : Nat) : served a (m + 101) = served a m + (a + 1) := by
  have h1 : (m + 101) / 101 = m / 101 + 1 := by omega
  have h2 : (m + 101) % 101 = m % 101 := by omega
  unfold served
  rw [h1, h2, Nat.add_mul]
  omega

theorem served_succ {a : Nat} (ha : a ≤ 100) (m : Nat) :
    served a (m + 1) = served a m + if Serves a m then 1 else 0 := by
  have hs : (if Serves a m then 1 else 0) = if 100 - a ≤ m % 101 then 1 else 0 := rfl
  rw [hs]
  unfold served
  by_cases hm : m % 101 = 100
  · have h1 : (m + 1) / 101 = m / 101 + 1 := by omega
    have h2 : (m + 1) % 101 = 0 := by omega
    rw [h1, h2, Nat.add_mul, hm, if_pos (by omega)]
    omega
  · have h1 : (m + 1) / 101 = m / 101 := by omega
    have h2 : (m + 1) % 101 = m % 101 + 1 := by omega
    rw [h1, h2]
    split <;> omega

theorem served_mono {a b : Nat} (hab : a ≤ b) (m : Nat) : served a m ≤ served b m := by
  have : m / 101 * (a + 1) ≤ m / 101 * (b + 1) := Nat.mul_le_mul_left _ (by omega)
  unfold served
  omega

/-- In a pass that serves both, the higher level has already been served more often. -/
theorem served_lt {a b m : Nat} (hab : a < b) (hb : b ≤ 100) (h : Serves a m) :
    served a m < served b m := by
  have : m / 101 * (a + 1) ≤ m / 101 * (b + 1) := Nat.mul_le_mul_left _ (by omega)
  unfold Serves at h
  unfold served
  omega

theorem div_le_served (a m : Nat) : m / 101 ≤ served a m := by
  have : m / 101 * 1 ≤ m / 101 * (a + 1) := Nat.mul_le_mul_left _ (by omega)
  unfold served
  omega

/-- The dispatches of the process of level `a` in slot `i` when pass `m` has come to slot `p`. -/
def due (a m p i : Nat) : Nat := served a m + if i < p ∧ Serves a m then 1 else 0

theorem due_start (a m i : Nat) : due a m 0 i = served a m := by simp [due]

/-- What the visit of slot `p` adds. -/
theorem due_visit (a m p i : Nat) :
    due a m (p + 1) i = due a m p i + if i = p ∧ Serves a m then 1 else 0 := by
  unfold due
  by_cases h : Serves a m
  · simp only [h, and_true]
    split <;> split <;> split <;> omega
  · simp [h]

theorem due_end {a i : Nat} (ha : a ≤ 100) (m : Nat) (hi : i < NPROC) :
    due a m NPROC i = served a (m + 1) := by
  simp [due, served_succ ha, hi]

theorem served_le_due (a m p i : Nat) : served a m ≤ due a m p i := by unfold due; omega

/-- A lower level is not ahead in the middle of a pass either. -/
theorem due_le_served {a b : Nat} (hab : a < b) (hb : b ≤ 100) (m p i : Nat) :
    due a m p i ≤ served b m := by
  unfold due
  split
  · next h =>
    have := served_lt hab hb h.2
    omega
  · have := served_mono (Nat.le_of_lt hab) m
    omega

/-! ## Runs -/

/-- What a run is judged by. -/
structure Record where
  passes : Nat
  count : Slot → Nat
  finished : List Slot

/-- The record after one event, for the processes of `S`, which need `need` dispatches. -/
def Record.after (S : Finset Slot) (need : Option Nat) (s : State) (g : Record) : Record :=
  if s.p < NPROC then
    match dispatched s with
    | some i =>
      { g with count := Function.update g.count i (g.count i + 1)
               finished := if i ∈ S ∧ need = some (g.count i + 1) then g.finished ++ [i]
                           else g.finished }
    | none => g
  else { g with passes := g.passes + 1 }

/-- A process that has had `n` dispatches needs no more. -/
def Done (need : Option Nat) (n : Nat) : Prop := ∃ d, need = some d ∧ d ≤ n

/-- The processes of `S` are RUNNABLE when control is in the scheduler, and keep their priorities,
    until they have had the dispatches they need. -/
def Steady (S : Finset Slot) (need : Option Nat) (x : State × Record) (f : Table → Table) : Prop :=
  ∀ i ∈ S, ¬Done need ((Record.after S need x.1 x.2).count i) →
    (f (handed x.1) i).state = .runnable ∧ (f (handed x.1) i).prio = (handed x.1 i).prio

/-- `scheduler`, from its first pass, over a table in which the processes of `S` are CPU-bound and
    anything may happen to the others. -/
def scheduler (S : Finset Slot) (prio : Slot → Int) (need : Option Nat) :
    Lts (State × Record) (Table → Table) :=
  (Lts.withGhost
    { start := fun s => s.prioCheck = 1000 ∧ s.p = 0 ∧
        ∀ i ∈ S, (s.ptable i).state = .runnable ∧ (s.ptable i).prio = prio i
      step := fun s f s' => s' = step s f }
    ⟨0, fun _ => 0, []⟩ fun s g _ => Record.after S need s g).guard (Steady S need)

/-- What holds in every state. -/
structure Inv (S : Finset Slot) (prio : Slot → Int) (need : Option Nat) (x : State × Record) :
    Prop where
  check : x.1.prioCheck = 1000 - 10 * (x.2.passes % 101 : Nat)
  p_le : x.1.p ≤ NPROC
  ready : ∀ i ∈ S, ¬Done need (x.2.count i) →
    (x.1.ptable i).state = .runnable ∧ (x.1.ptable i).prio = prio i
  count : ∀ i ∈ S, ¬Done need (x.2.count i) →
    x.2.count i = due (level (prio i)) x.2.passes x.1.p i
  late : ∀ i ∈ S, ∀ d, need = some d → d ≤ x.2.count i →
    d ≤ due (level (prio i)) x.2.passes x.1.p i
  finished : ∀ i, i ∈ x.2.finished ↔ i ∈ S ∧ Done need (x.2.count i)
  nodup : x.2.finished.Nodup
  order : x.2.finished.Pairwise fun i j => level (prio j) ≤ level (prio i)

section Keeps

variable {S : Finset Slot} {prio : Slot → Int} {need : Option Nat} {s : State} {g : Record}
  {f : Table → Table}

theorem Done.mono {m n : Nat} (h : Done need m) (hmn : m ≤ n) : Done need n := by
  obtain ⟨d, hd, hm⟩ := h
  exact ⟨d, hd, by omega⟩

theorem done_succ {n : Nat} : Done need (n + 1) ↔ Done need n ∨ need = some (n + 1) := by
  constructor
  · rintro ⟨d, hd, hle⟩
    by_cases h : d = n + 1
    · exact .inr (h ▸ hd)
    · exact .inl ⟨d, hd, by omega⟩
  · rintro (h | h)
    · exact h.mono (Nat.le_succ n)
    · exact ⟨n + 1, h, Nat.le_refl _⟩

theorem not_done_of_last {n : Nat} (h : need = some (n + 1)) : ¬Done need n := by
  rintro ⟨d, hd, hle⟩
  rw [h] at hd
  cases hd
  omega

theorem picks_iff {p : Proc} {a : Nat} {prio : Int} (hrun : p.state = .runnable)
    (hp : p.prio = prio) (h0 : 0 ≤ prio) :
    picks (1000 - 10 * (a % 101 : Nat)) p = true ↔ Serves (level prio) a := by
  unfold picks Serves level
  simp only [hrun, hp, Bool.not_or, ne_eq, not_true_eq_false, decide_false, Bool.not_false,
    Bool.true_and, Bool.not_eq_true', decide_eq_false_iff_not, not_lt]
  omega

/-- One event: the loop switches to `i`, or passes over a slot, or ends. -/
theorem step_cases (s : State) (f : Table → Table) (hp : s.p ≤ NPROC) :
    (∃ i : Slot, i.1 = s.p ∧ picks s.prioCheck (s.ptable i) = true ∧ dispatched s = some i ∧
      step s f = { s with ptable := f (handed s), p := s.p + 1 }) ∨
    (∃ i : Slot, i.1 = s.p ∧ picks s.prioCheck (s.ptable i) = false ∧ dispatched s = none ∧
      step s f = { s with p := s.p + 1 }) ∨
    (s.p = NPROC ∧ dispatched s = none ∧
      step s f = ⟨if s.prioCheck - 10 < 0 then 1000 else s.prioCheck - 10, f s.ptable, 0⟩) := by
  by_cases h : s.p < NPROC
  · cases hpick : picks s.prioCheck (s.ptable ⟨s.p, h⟩) with
    | true =>
      have hd : dispatched s = some ⟨s.p, h⟩ := by simp [dispatched, h, hpick]
      exact .inl ⟨⟨s.p, h⟩, rfl, hpick, hd, by simp [step, h, hd]⟩
    | false =>
      have hd : dispatched s = none := by simp [dispatched, h, hpick]
      exact .inr (.inl ⟨⟨s.p, h⟩, rfl, hpick, hd, by simp [step, h, hd]⟩)
  · have hd : dispatched s = none := by simp [dispatched, h]
    exact .inr (.inr ⟨by omega, hd, by simp [step, handed, h, hd]⟩)

/-- A process that still needs dispatches is switched to exactly in the passes of its level. -/
theorem Inv.picks_iff (h : Inv S prio need (s, g)) (h0 : ∀ i ∈ S, 0 ≤ prio i) {i : Slot}
    (hi : i ∈ S) (hnd : ¬Done need (g.count i)) :
    picks s.prioCheck (s.ptable i) = true ↔ Serves (level (prio i)) g.passes := by
  obtain ⟨hrun, hp⟩ := h.ready i hi hnd
  have hc : s.prioCheck = 1000 - 10 * (g.passes % 101 : Nat) := h.check
  rw [hc]
  exact Sched.picks_iff hrun hp (h0 i hi)

/-- Once a process is done, so are those of higher levels. -/
theorem Inv.ahead (h : Inv S prio need (s, g)) {i j : Slot} (hi : i ∈ S) (hj : j ∈ S)
    (hij : level (prio j) < level (prio i)) (hd : Done need (g.count j)) :
    Done need (g.count i) := by
  by_contra hnd
  obtain ⟨d, hd, hle⟩ := hd
  have h1 : d ≤ due (level (prio j)) g.passes s.p j := h.late j hj d hd hle
  have h2 := due_le_served hij (level_le _) g.passes s.p j
  have h3 := served_le_due (level (prio i)) g.passes s.p i
  have h4 : g.count i = due (level (prio i)) g.passes s.p i := h.count i hi hnd
  exact hnd ⟨d, hd, by omega⟩

/-- The record after a switch to process `j`. -/
theorem after_dispatch {j : Slot} (hd : dispatched s = some j) :
    g.after S need s =
      { g with count := Function.update g.count j (g.count j + 1)
               finished := if j ∈ S ∧ need = some (g.count j + 1) then g.finished ++ [j]
                           else g.finished } := by
  have hp : s.p < NPROC := by
    by_contra hp
    simp [dispatched, hp] at hd
  simp [Record.after, hp, hd]

/-- What the switch adds to the dispatches of a process that needs more. -/
theorem Inv.count_dispatch (h : Inv S prio need (s, g)) (h0 : ∀ i ∈ S, 0 ≤ prio i) {j : Slot}
    (hj : j.1 = s.p) (hpick : picks s.prioCheck (s.ptable j) = true) {i : Slot} (hi : i ∈ S)
    (hnd : ¬Done need (g.count i)) :
    Function.update g.count j (g.count j + 1) i
      = due (level (prio i)) g.passes (s.p + 1) i := by
  have hc : g.count i = due (level (prio i)) g.passes s.p i := h.count i hi hnd
  rw [due_visit]
  by_cases hij : i = j
  · subst hij
    have hs := (h.picks_iff h0 hi hnd).1 hpick
    rw [Function.update_self, if_pos ⟨hj, hs⟩, ← hc]
  · have hne : ¬(i.1 = s.p ∧ Serves (level (prio i)) g.passes) := by
      rintro ⟨hip, -⟩
      exact hij (Fin.ext (by omega))
    rw [Function.update_of_ne hij, if_neg hne, ← hc, Nat.add_zero]

/-- A process is in the list once it has been switched to for the last time. -/
theorem Inv.mem_dispatch (h : Inv S prio need (s, g)) (j i : Slot) :
    i ∈ (if j ∈ S ∧ need = some (g.count j + 1) then g.finished ++ [j] else g.finished) ↔
      i ∈ S ∧ Done need (Function.update g.count j (g.count j + 1) i) := by
  have hf : i ∈ g.finished ↔ i ∈ S ∧ Done need (g.count i) := h.finished i
  by_cases hij : i = j
  · subst hij
    rw [Function.update_self, done_succ]
    split
    · next hc => simp [hc.1, hc.2]
    · next hc =>
      rw [hf]
      constructor
      · exact fun ⟨hi, hd⟩ => ⟨hi, .inl hd⟩
      · rintro ⟨hi, hd | hd⟩
        · exact ⟨hi, hd⟩
        · exact absurd ⟨hi, hd⟩ hc
  · rw [Function.update_of_ne hij, ← hf]
    split
    · simp [hij]
    · rfl

/-- The loop switches to process `j`. -/
theorem Inv.dispatch (h : Inv S prio need (s, g)) (h0 : ∀ i ∈ S, 0 ≤ prio i) {j : Slot}
    (hj : j.1 = s.p) (hpick : picks s.prioCheck (s.ptable j) = true)
    (hd : dispatched s = some j) (hok : Steady S need (s, g) f) :
    Inv S prio need ({ s with ptable := f (handed s), p := s.p + 1 }, g.after S need s) := by
  have hprio : ∀ i, (handed s i).prio = (s.ptable i).prio := by
    intro i
    by_cases hij : i = j
    · subst hij
      simp [handed, hd, chosen]
    · simp [handed, hd, hij]
  have hle : ∀ i, g.count i ≤ Function.update g.count j (g.count j + 1) i := by
    intro i
    by_cases hij : i = j
    · subst hij
      simp
    · simp [hij]
  unfold Steady at hok
  rw [after_dispatch hd] at hok ⊢
  exact
    { check := h.check
      p_le := by
        show s.p + 1 ≤ NPROC
        have := j.2
        omega
      ready := by
        intro i hi hnd
        obtain ⟨h1, h2⟩ := hok i hi hnd
        refine ⟨h1, ?_⟩
        show (f (handed s) i).prio = prio i
        rw [h2, hprio]
        exact (h.ready i hi fun hdone => hnd (hdone.mono (hle i))).2
      count := by
        intro i hi hnd
        exact h.count_dispatch h0 hj hpick hi fun hdone => hnd (hdone.mono (hle i))
      late := by
        intro i hi d hneed hdc
        by_cases hnd : Done need (g.count i)
        · obtain ⟨d', hd', hle'⟩ := hnd
          obtain rfl : d = d' := Option.some.inj (hneed.symm.trans hd')
          have h1 : d ≤ due (level (prio i)) g.passes s.p i := h.late i hi d hneed hle'
          show d ≤ due _ _ (s.p + 1) _
          rw [due_visit]
          exact Nat.le_trans h1 (Nat.le_add_right _ _)
        · have := h.count_dispatch h0 hj hpick hi hnd
          exact Nat.le_trans hdc (Nat.le_of_eq this)
      finished := h.mem_dispatch j
      nodup := by
        show (if j ∈ S ∧ need = some (g.count j + 1) then g.finished ++ [j]
          else g.finished).Nodup
        split
        · next hc =>
          have hnot : j ∉ g.finished := fun hm =>
            not_done_of_last hc.2 ((h.finished j).1 hm).2
          exact List.nodup_append.2 ⟨h.nodup, List.nodup_singleton j, by
            rintro a ha b hb rfl
            exact hnot (List.mem_singleton.1 hb ▸ ha)⟩
        · exact h.nodup
      order := by
        show (if j ∈ S ∧ need = some (g.count j + 1) then g.finished ++ [j]
          else g.finished).Pairwise _
        split
        · next hc =>
          refine List.pairwise_append.2 ⟨h.order, List.pairwise_singleton _ _, ?_⟩
          intro i hi b hb
          rw [List.mem_singleton.1 hb]
          -- a lower level that was done before `j` would have needed `j` to be done
          by_contra hlt
          obtain ⟨hiS, hid⟩ := (h.finished i).1 hi
          exact not_done_of_last hc.2 (h.ahead hc.1 hiS (by omega) hid)
        · exact h.order }

/-- The loop passes over slot `j`. -/
theorem Inv.skip (h : Inv S prio need (s, g)) (h0 : ∀ i ∈ S, 0 ≤ prio i) {j : Slot}
    (hj : j.1 = s.p) (hpick : picks s.prioCheck (s.ptable j) = false) :
    Inv S prio need ({ s with p := s.p + 1 }, g) where
  check := h.check
  p_le := by
    show s.p + 1 ≤ NPROC
    have := j.2
    omega
  ready := h.ready
  count i hi hnd := by
    have hc : g.count i = due (level (prio i)) g.passes s.p i := h.count i hi hnd
    have hs : ¬(i.1 = s.p ∧ Serves (level (prio i)) g.passes) := by
      rintro ⟨hip, hs⟩
      have : i = j := Fin.ext (by omega)
      subst this
      rw [(h.picks_iff h0 hi hnd).2 hs] at hpick
      cases hpick
    show g.count i = due _ _ (s.p + 1) _
    rw [due_visit, if_neg hs, hc, Nat.add_zero]
  late i hi d hd hle := by
    have := h.late i hi d hd hle
    show d ≤ due _ _ (s.p + 1) _
    rw [due_visit]
    exact Nat.le_trans this (Nat.le_add_right _ _)
  finished := h.finished
  nodup := h.nodup
  order := h.order

/-- A pass ends. -/
theorem Inv.pass (h : Inv S prio need (s, g)) (hp : s.p = NPROC) (hd : dispatched s = none)
    (hok : Steady S need (s, g) f) :
    Inv S prio need (⟨if s.prioCheck - 10 < 0 then 1000 else s.prioCheck - 10, f s.ptable, 0⟩,
      g.after S need s) := by
  have hg : g.after S need s = { g with passes := g.passes + 1 } := by simp [Record.after, hp]
  have hh : handed s = s.ptable := by simp [handed, hd]
  have hdue : ∀ i : Slot, due (level (prio i)) (g.passes + 1) 0 i
      = due (level (prio i)) g.passes s.p i := by
    intro i
    rw [hp, due_end (level_le _) _ i.2, due_start]
  unfold Steady at hok
  rw [hg, hh] at hok
  rw [hg]
  exact
    { check := by
        have hc : s.prioCheck = 1000 - 10 * (g.passes % 101 : Nat) := h.check
        show (if s.prioCheck - 10 < 0 then (1000 : Int) else s.prioCheck - 10)
          = 1000 - 10 * ((g.passes + 1) % 101 : Nat)
        rw [hc]
        split <;> omega
      p_le := Nat.zero_le _
      ready := by
        intro i hi hnd
        obtain ⟨h1, h2⟩ := hok i hi hnd
        exact ⟨h1, h2.trans (h.ready i hi hnd).2⟩
      count := by
        intro i hi hnd
        rw [hdue]
        exact h.count i hi hnd
      late := by
        intro i hi d hd hle
        rw [hdue]
        exact h.late i hi d hd hle
      finished := h.finished
      nodup := h.nodup
      order := h.order }

/-- The invariant survives every event. -/
theorem Inv.step (h : Inv S prio need (s, g)) (h0 : ∀ i ∈ S, 0 ≤ prio i)
    (hok : Steady S need (s, g) f) : Inv S prio need (Sched.step s f, g.after S need s) := by
  obtain ⟨j, hj, hpick, hd, hs⟩ | ⟨j, hj, hpick, hd, hs⟩ | ⟨hp, hd, hs⟩ := step_cases s f h.p_le
  · rw [hs]
    exact h.dispatch h0 hj hpick hd hok
  · have hg : g.after S need s = g := by
      have hp : s.p < NPROC := hj ▸ j.2
      simp [Record.after, hp, hd]
    rw [hs, hg]
    exact h.skip h0 hj hpick
  · rw [hs]
    exact h.pass hp hd hok

end Keeps

section Law

variable {S : Finset Slot} {prio : Slot → Int} {need : Option Nat} {x x' : State × Record}
  {trs : List ((State × Record) × (Table → Table) × (State × Record))}

theorem inv_start (h0 : need ≠ some 0) (hs : (scheduler S prio need).start x) :
    Inv S prio need x := by
  obtain ⟨s, g⟩ := x
  obtain ⟨⟨hcheck, hp, hready⟩, hg⟩ := hs
  obtain rfl : g = _ := hg
  have hp : s.p = 0 := hp
  have hnd : ¬Done need 0 := by
    rintro ⟨d, hd, hle⟩
    exact h0 (by rw [hd, Nat.le_zero.1 hle])
  exact
    { check := hcheck
      p_le := by
        show s.p ≤ NPROC
        omega
      ready := fun i hi _ => hready i hi
      count := by
        intro i _ _
        show 0 = due _ 0 s.p _
        simp [due, hp]
      late := by
        intro i _ d hd hle
        exact absurd ⟨d, hd, hle⟩ hnd
      finished := by
        intro i
        simp [hnd]
      nodup := List.nodup_nil
      order := List.Pairwise.nil }

theorem inv_reach (h0 : ∀ i ∈ S, 0 ≤ prio i) (hneed : need ≠ some 0)
    (hr : (scheduler S prio need).Reach x) : Inv S prio need x := by
  refine hr.invariant (fun _ hs => inv_start hneed hs) ?_
  rintro ⟨s, g⟩ f ⟨s', g'⟩ hi ⟨hok, hst, hg⟩
  have hst : s' = step s f := hst
  have hg : g' = g.after S need s := hg
  subst hst hg
  exact hi.step h0 hok

/-- At the end of a pass, and before the next one, all counts are those of whole passes. -/
theorem count_between (h0 : ∀ i ∈ S, 0 ≤ prio i) (hr : (scheduler S prio none).Reach x)
    (hp : x.1.p = 0 ∨ x.1.p = NPROC) :
    ∃ m, ∀ i ∈ S, x.2.count i = served (level (prio i)) m := by
  have hinv := inv_reach h0 (by simp) hr
  have hcount : ∀ i ∈ S, x.2.count i = due (level (prio i)) x.2.passes x.1.p i :=
    fun i hi => hinv.count i hi (by simp [Done])
  rcases hp with hp | hp
  · exact ⟨x.2.passes, fun i hi => by rw [hcount i hi, hp, due_start]⟩
  · exact ⟨x.2.passes + 1, fun i hi => by rw [hcount i hi, hp, due_end (level_le _) _ i.2]⟩

/-- After `101 * d` passes every process of `S` has had `d` dispatches. -/
theorem done_of_passes (h0 : ∀ i ∈ S, 0 ≤ prio i) {d : Nat} (hd : 0 < d)
    (hr : (scheduler S prio (some d)).Reach x) (hm : 101 * d ≤ x.2.passes) {i : Slot}
    (hi : i ∈ S) : i ∈ x.2.finished := by
  have hinv := inv_reach h0 (by simp; omega) hr
  refine (hinv.finished i).2 ⟨hi, ?_⟩
  by_contra hnd
  have h1 := hinv.count i hi hnd
  have h2 := served_le_due (level (prio i)) x.2.passes x.1.p i
  have h3 := div_le_served (level (prio i)) x.2.passes
  have h4 : d ≤ x.2.passes / 101 := by omega
  exact hnd ⟨d, rfl, by omega⟩

/-- **The scheduler's service.**  A cycle of 101 passes dispatches a process once more than its
    level; at the ends of passes a higher priority is never behind a lower one; and processes that
    need equally many dispatches have the last one in decreasing order of their levels, all of
    them sooner or later. -/
theorem service_law (S : Finset Slot) (prio : Slot → Int) (h0 : ∀ i ∈ S, 0 ≤ prio i) :
    (∀ x trs x', (scheduler S prio none).Reach x → (scheduler S prio none).Run x trs x' →
      x.1.p = 0 → x'.1.p = 0 → x'.2.passes = x.2.passes + 101 →
      ∀ i ∈ S, x'.2.count i = x.2.count i + (level (prio i) + 1)) ∧
    (∀ x, (scheduler S prio none).Reach x → x.1.p = 0 ∨ x.1.p = NPROC →
      ∀ i ∈ S, ∀ j ∈ S, prio i ≤ prio j → x.2.count i ≤ x.2.count j) ∧
    (∀ d, 0 < d → ∀ x, (scheduler S prio (some d)).Reach x →
      x.2.finished.Nodup ∧ (∀ i ∈ x.2.finished, i ∈ S) ∧
      x.2.finished.Pairwise (fun i j => level (prio j) ≤ level (prio i)) ∧
      (∀ i ∈ S, ∀ j ∈ x.2.finished, level (prio j) < level (prio i) → i ∈ x.2.finished) ∧
      (101 * d ≤ x.2.passes → ∀ i ∈ S, i ∈ x.2.finished)) := by
  refine ⟨?_, ?_, ?_⟩
  · intro x trs x' hr hrun hp hp' hm i hi
    have hinv := inv_reach h0 (by simp) hr
    have hinv' := inv_reach h0 (by simp) (hr.run hrun)
    have hnd : ∀ n, ¬Done none n := by simp [Done]
    rw [hinv'.count i hi (hnd _), hinv.count i hi (hnd _), hp, hp', due_start, due_start, hm,
      served_cycle]
  · intro x hr hp i hi j hj hij
    obtain ⟨m, hm⟩ := count_between h0 hr hp
    rw [hm i hi, hm j hj]
    exact served_mono (level_mono hij) m
  · intro d hd x hr
    have hinv := inv_reach h0 (by simp; omega) hr
    refine ⟨hinv.nodup, fun i hi => ((hinv.finished i).1 hi).1, hinv.order, ?_, ?_⟩
    · intro i hi j hj hij
      obtain ⟨hjS, hjd⟩ := (hinv.finished j).1 hj
      exact (hinv.finished i).2 ⟨hi, hinv.ahead hi hjS hij hjd⟩
    · intro hm i hi
      exact done_of_passes h0 hd hr hm hi

end Law

/-- The children of testcase-sched.c, in the slots that follow those of `init`, the shell and the
    test itself. -/
def five : Finset Slot := Finset.univ.filter fun i => 3 ≤ i.1 ∧ i.1 ≤ 7

def fivePrio (i : Slot) : Int := 10 * ((i.1 : Int) - 3) + 1

theorem service_law_five : (∀ i ∈ five, 0 ≤ fivePrio i) ∧
    ∀ d, 0 < d → ∀ x, (scheduler five fivePrio (some d)).Reach x → 101 * d ≤ x.2.passes →
      x.2.finished = [7, 6, 5, 4, 3] := by
  have h0 : ∀ i ∈ five, 0 ≤ fivePrio i := by decide
  refine ⟨h0, fun d hd x hr hm => ?_⟩
  obtain ⟨hnodup, hmem, hord, -, hall⟩ := (service_law five fivePrio h0).2.2 d hd x hr
  have hall := hall hm
  have hperm : x.2.finished.Perm [7, 6, 5, 4, 3] := by
    refine (List.perm_ext_iff_of_nodup hnodup (by decide)).2 fun i => ?_
    have : i ∈ five ↔ i ∈ [7, 6, 5, 4, 3] := by revert i; decide
    exact ⟨fun hi => this.1 (hmem i hi), fun hi => hall i (this.2 hi)⟩
  refine hperm.eq_of_pairwise ?_ hord (by decide)
  have hanti : ∀ i ∈ five, ∀ j ∈ five, level (fivePrio j) ≤ level (fivePrio i) →
      level (fivePrio i) ≤ level (fivePrio j) → i = j := by decide
  intro i j hi hj hij hji
  exact hanti i (hmem i hi) j (hmem j (hperm.mem_iff.2 hj)) hij hji

end OsCodes.Sched
