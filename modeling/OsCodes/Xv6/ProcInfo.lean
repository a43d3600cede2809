/-
  What `getProcInfo` reports as the parent of a process, while other processors fork, exit and
  wait.

  A record keeps which process has forked the one in each slot, and which processes have exited.
  `fork` gives a slot its pid long before its parent; the parent pointer is right from `forkCopy`
  on, since `exit` hands the children to `init` before their parent can be reaped.

  1. `Inv` says of every process that has been published who its parent is, in the table and in
     the record, and of a slot that is still being filled in that it has no parent yet;
  2. `Inv.quiet` covers all events that change no pid, no parent and no record; `Allocates` is
     what the first part of `fork` changes, and `Parented.exit` what `exit` does to the children
     of the process that exits;
  3. `Inv.step` puts the events together, and the law reads off `Law`: the parent that `ProcInfo`
     reports is the forker, or `init` once the forker has exited, exactly where the slot is not
     one that `fork` has taken and not yet copied.
-/
import OsCodes.Xv6.Ptable

namespace OsCodes.ProcInfo

open Ptable

/-- The pid of the process that called `fork` for each slot, and the pids that have exited. -/
structure Record where
  forker : Slot → Int
  gone : Int → Bool

/-- The record after an event in `s`. -/
def Record.after (s : State) (g : Record) : Event → Record
  | .forkAlloc i _ =>
    match unusedSlot s.ptable with
    | none => g
    | some np => { g with forker := Function.update g.forker np (s.ptable i).pid }
  | .exit i => { g with gone := Function.update g.gone (s.ptable i).pid true }
  | _ => g

/-- The kernel with its record. -/
def recorded : Lts (State × Record) Event :=
  system.withGhost ⟨fun _ => 0, fun _ => false⟩ Record.after

/-- The process that a child of process `pid` belongs to. -/
def Record.heir (g : Record) (pid : Int) : Int := if g.gone pid then 1 else pid

/-- What is wanted of `ProcInfo(pid)`: where it reads `p->parent->pid`, there is a parent in use,
    and its pid is that of the forker, or of `init` if the forker has exited. -/
def Law (s : State) (g : Record) (pid : Int) : Prop :=
  ∀ p, infoSlot pid s.ptable = some p → pid ≠ 1 →
    ∃ q info, (s.ptable p).parent = some q ∧ (s.ptable q).state ≠ .unused ∧
      procInfo pid s.ptable = .ok (some info) ∧ info.ppid = g.heir (g.forker p)

/-- The process `p` has a parent, which is the one that the record says. -/
def Parented (s : State) (g : Record) (p : Slot) : Prop :=
  ∃ q, (s.ptable p).parent = some q ∧ Live (s.ptable q).state ∧
    (s.ptable q).pid = g.heir (g.forker p)

/-- What holds of all slots together: which pids are in use and which are gone, and who the parent
    of each published process is. -/
structure Inv (s : State) (g : Record) : Prop where
  shape : Shape s
  init : Live (s.ptable initproc).state ∧ (s.ptable initproc).pid = 1
  nextpid : 2 ≤ s.nextpid
  pid : ∀ p, (s.ptable p).state ≠ .unused → (s.ptable p).pid < s.nextpid
  inj : ∀ p q, (s.ptable p).state ≠ .unused → (s.ptable q).state ≠ .unused →
    (s.ptable p).pid = (s.ptable q).pid → p = q
  gone : ∀ pid, g.gone pid = true → pid ≠ 1 ∧ pid < s.nextpid
  here : ∀ p, (s.ptable p).state ≠ .unused → (s.ptable p).state ≠ .zombie →
    g.gone (s.ptable p).pid = false
  orphan : ∀ p, (s.ptable p).state = .unused ∨ (∃ i, s.path i = .allocated p) →
    (s.ptable p).parent = none
  child : ∀ p, (s.ptable p).state ≠ .unused → p ≠ initproc → (∀ i, s.path i ≠ .allocated p) →
    Parented s g p
  pending : ∀ i np, s.path i = .allocated np → g.forker np = (s.ptable i).pid

section Steps

variable {s s' : State} {g : Record} {i np : Slot} {p : Proc} {e : Event}

theorem Live.ne_unused {st : ProcState} (h : Live st) : st ≠ .unused := fun hun =>
  not_live_unused hun h

theorem Live.ne_zombie {st : ProcState} (h : Live st) : st ≠ .zombie := fun hz =>
  not_live_zombie hz h

theorem Live.ne_embryo {st : ProcState} (h : Live st) : st ≠ .embryo := fun he =>
  not_live_embryo he h

/-- A parent that stays in its slot stays the parent. -/
theorem Parented.congr {g' : Record} (h : Parented s g np)
    (hparent : (s'.ptable np).parent = (s.ptable np).parent)
    (hlive : ∀ q, Live (s.ptable q).state →
      Live (s'.ptable q).state ∧ (s'.ptable q).pid = (s.ptable q).pid)
    (hheir : g'.heir (g'.forker np) = g.heir (g.forker np)) : Parented s' g' np := by
  obtain ⟨q, hq, hl, hpid⟩ := h
  obtain ⟨hl', hpid'⟩ := hlive q hl
  exact ⟨q, hparent.trans hq, hl', hpid'.trans (hpid.trans hheir.symm)⟩

/-- An event after which everybody has the pid and the parent that it had. -/
structure Quiet (s s' : State) : Prop where
  pid : ∀ p, (s'.ptable p).pid = (s.ptable p).pid
  parent : ∀ p, (s'.ptable p).parent = (s.ptable p).parent
  nextpid : s'.nextpid = s.nextpid
  unused : ∀ p, (s'.ptable p).state = .unused ↔ (s.ptable p).state = .unused
  live : ∀ p, Live (s.ptable p).state → Live (s'.ptable p).state
  zombie : ∀ p, (s.ptable p).state = .zombie → (s'.ptable p).state = .zombie
  path : ∀ i np, s'.path i = .allocated np ↔ s.path i = .allocated np

theorem Inv.quiet (h : Inv s g) (hshape : Shape s') (hq : Quiet s s') : Inv s' g where
  shape := hshape
  init := ⟨hq.live _ h.init.1, (hq.pid _).trans h.init.2⟩
  nextpid := hq.nextpid ▸ h.nextpid
  pid p hp := by
    rw [hq.pid, hq.nextpid]
    exact h.pid p fun hun => hp ((hq.unused p).2 hun)
  inj p q hp hp' hpq := by
    rw [hq.pid, hq.pid] at hpq
    exact h.inj p q (fun hun => hp ((hq.unused p).2 hun)) (fun hun => hp' ((hq.unused q).2 hun)) hpq
  gone pid hg := hq.nextpid ▸ h.gone pid hg
  here p hun hz := by
    rw [hq.pid]
    exact h.here p (fun hun' => hun ((hq.unused p).2 hun')) fun hz' => hz (hq.zombie p hz')
  orphan p hp := by
    rw [hq.parent]
    refine h.orphan p ?_
    rcases hp with hun | ⟨i, hi⟩
    · exact .inl ((hq.unused p).1 hun)
    · exact .inr ⟨i, (hq.path i p).1 hi⟩
  child p hun hp hfree :=
    (h.child p (fun hun' => hun ((hq.unused p).2 hun')) hp fun i hi =>
      hfree i ((hq.path i p).2 hi)).congr (hq.parent p) (fun q hl => ⟨hq.live q hl, hq.pid q⟩) rfl
  pending i np hi := (h.pending i np ((hq.path i np).1 hi)).trans (hq.pid i).symm

/-- A slot is overwritten but for its pid and its parent. -/
theorem Quiet.set (hpid : p.pid = (s.ptable i).pid) (hparent : p.parent = (s.ptable i).parent)
    (hunused : p.state = .unused ↔ (s.ptable i).state = .unused)
    (hlive : Live (s.ptable i).state → Live p.state)
    (hzombie : (s.ptable i).state = .zombie → p.state = .zombie) : Quiet s (s.set i p) := by
  refine ⟨fun q => ?_, fun q => ?_, rfl, fun q => ?_, fun q => ?_, fun q => ?_, fun j np => .rfl⟩ <;>
  · by_cases hqi : q = i
    · subst hqi
      simpa using by assumption
    · simp [hqi]

/-- A process moves on, without `fork`'s first part. -/
theorem Quiet.go {w : Path} (hold : ∀ np, s.path i ≠ .allocated np)
    (hnew : ∀ np, w ≠ .allocated np) : Quiet s (s.go i w) := by
  refine ⟨fun _ => rfl, fun _ => rfl, rfl, fun _ => .rfl, fun _ => id, fun _ => id, fun j np => ?_⟩
  by_cases hji : j = i
  · subst hji
    simp [hold, hnew]
  · simp [hji]

theorem Quiet.trans {s₁ : State} (h : Quiet s s₁) (h' : Quiet s₁ s') : Quiet s s' where
  pid p := (h'.pid p).trans (h.pid p)
  parent p := (h'.parent p).trans (h.parent p)
  nextpid := h'.nextpid.trans h.nextpid
  unused p := (h'.unused p).trans (h.unused p)
  live p hl := h'.live p (h.live p hl)
  zombie p hz := h'.zombie p (h.zombie p hz)
  path i np := (h'.path i np).trans (h.path i np)

/-- **What `allocproc` does**, called by process `i`: slot `np` goes from UNUSED to EMBRYO with a
    new pid and without a parent, and no other slot changes its state, its pid or its parent. -/
structure Allocates (s s' : State) (i np : Slot) : Prop where
  free : (s.ptable np).state = .unused
  caller : i ≠ np
  old : ∀ p, p ≠ np → (s'.ptable p).state = (s.ptable p).state ∧
    (s'.ptable p).pid = (s.ptable p).pid ∧ (s'.ptable p).parent = (s.ptable p).parent
  new : (s'.ptable np).state = .embryo ∧ (s'.ptable np).pid = s.nextpid ∧
    (s'.ptable np).parent = (s.ptable np).parent
  nextpid : s'.nextpid = s.nextpid + 1
  path : ∀ j q, s'.path j = .allocated q ↔ s.path j = .allocated q ∨ (j = i ∧ q = np)

namespace Allocates

theorem of_forkAlloc {a : Nat} (hready : Ready s i) (hpath : s.path i = .user)
    (hfree : unusedSlot s.ptable = some np)
    (hs' : s' = { ((s.set i (s.trapped i a)).set np (allocproc s.nextpid (s.ptable np))).go i
      (.allocated np) with nextpid := s.nextpid + 1 }) : Allocates s s' i np where
  free := unusedSlot_some hfree
  caller := by
    rintro rfl
    have hun := unusedSlot_some hfree
    rw [hready.1] at hun
    cases hun
  old p hp := by
    subst hs'
    by_cases hpi : p = i
    · subst hpi
      simp [hp, State.trapped]
    · simp [hp, hpi]
  new := by
    subst hs'
    simp [allocproc]
  nextpid := by rw [hs']
  path j q := by
    subst hs'
    by_cases hji : j = i
    · subst hji
      simp [hpath, eq_comm]
    · simp [hji]

/-- The pids of the other slots are smaller than the new one. -/
theorem pid_lt (ha : Allocates s s' i np) (h : Inv s g) {p : Slot} (hp : p ≠ np)
    (hun : (s'.ptable p).state ≠ .unused) : (s'.ptable p).pid < (s'.ptable np).pid := by
  obtain ⟨h1, h2, -⟩ := ha.old p hp
  rw [h2, ha.new.2.1]
  exact h.pid p (h1 ▸ hun)

theorem inj (ha : Allocates s s' i np) (h : Inv s g) (p q : Slot)
    (hp : (s'.ptable p).state ≠ .unused) (hq : (s'.ptable q).state ≠ .unused)
    (hpq : (s'.ptable p).pid = (s'.ptable q).pid) : p = q := by
  by_cases hpn : p = np <;> by_cases hqn : q = np
  · rw [hpn, hqn]
  · subst hpn
    exact absurd hpq.symm (ha.pid_lt h hqn hq).ne
  · subst hqn
    exact absurd hpq (ha.pid_lt h hpn hp).ne
  · obtain ⟨h1, h2, -⟩ := ha.old p hpn
    obtain ⟨h3, h4, -⟩ := ha.old q hqn
    exact h.inj p q (h1 ▸ hp) (h3 ▸ hq) (by rw [← h2, ← h4, hpq])

theorem here (ha : Allocates s s' i np) (h : Inv s g) (p : Slot)
    (hp : (s'.ptable p).state ≠ .unused) (hz : (s'.ptable p).state ≠ .zombie) :
    g.gone (s'.ptable p).pid = false := by
  by_cases hpn : p = np
  · subst hpn
    rw [ha.new.2.1, Bool.eq_false_iff]
    intro hgone
    have := (h.gone _ hgone).2
    omega
  · obtain ⟨h1, h2, -⟩ := ha.old p hpn
    rw [h2]
    exact h.here p (h1 ▸ hp) (h1 ▸ hz)

theorem orphan (ha : Allocates s s' i np) (h : Inv s g) (p : Slot)
    (hp : (s'.ptable p).state = .unused ∨ ∃ j, s'.path j = .allocated p) :
    (s'.ptable p).parent = none := by
  by_cases hpn : p = np
  · subst hpn
    rw [ha.new.2.2]
    exact h.orphan p (.inl ha.free)
  · obtain ⟨h1, -, h3⟩ := ha.old p hpn
    rw [h3]
    refine h.orphan p ?_
    rcases hp with hp | ⟨j, hj⟩
    · exact .inl (h1 ▸ hp)
    · rcases (ha.path j p).1 hj with hj | ⟨-, hj⟩
      · exact .inr ⟨j, hj⟩
      · exact absurd hj hpn

/-- Every other process keeps its parent, whatever the record says of `np`. -/
theorem parented (ha : Allocates s s' i np) {p : Slot} (hp : p ≠ np) (h : Parented s g p)
    (pid : Int) : Parented s' { g with forker := Function.update g.forker np pid } p := by
  refine h.congr (ha.old p hp).2.2 (fun q hl => ?_) (by simp [Record.heir, hp])
  obtain ⟨h4, h5, -⟩ := ha.old q fun hqn => Live.ne_unused hl (hqn ▸ ha.free)
  exact ⟨h4 ▸ hl, h5⟩

theorem pending (ha : Allocates s s' i np) (h : Inv s g) (j q : Slot)
    (hj : s'.path j = .allocated q) :
    Function.update g.forker np (s.ptable i).pid q = (s'.ptable j).pid := by
  rcases (ha.path j q).1 hj with hj | ⟨rfl, rfl⟩
  · have hemb := h.shape.embryo j q (.inl hj)
    have hqn : q ≠ np := by
      rintro rfl
      rw [ha.free] at hemb
      cases hemb
    have hjn : j ≠ np := by
      rintro rfl
      exact Live.ne_unused (h.shape.busy j (by simp [hj])) ha.free
    rw [(ha.old j hjn).2.1, ← h.pending j q hj]
    simp [hqn]
  · rw [(ha.old j ha.caller).2.1]
    simp

end Allocates

/-- `allocproc` gives process `i` a slot. -/
theorem Inv.forkAlloc {a : Nat} (h : Inv s g) (hready : Ready s i) (hpath : s.path i = .user)
    (hfree : unusedSlot s.ptable = some np)
    (hs' : s' = { ((s.set i (s.trapped i a)).set np (allocproc s.nextpid (s.ptable np))).go i
      (.allocated np) with nextpid := s.nextpid + 1 }) (hshape : Shape s') :
    Inv s' (g.after s (.forkAlloc i a)) := by
  have ha := Allocates.of_forkAlloc hready hpath hfree hs'
  have hn0 : initproc ≠ np := by
    rintro rfl
    exact Live.ne_unused h.init.1 ha.free
  have hg : g.after s (.forkAlloc i a)
      = { g with forker := Function.update g.forker np (s.ptable i).pid } := by
    simp [Record.after, hfree]
  have hnext := ha.nextpid
  rw [hg]
  exact
    { shape := hshape
      init := by
        obtain ⟨h1, h2, -⟩ := ha.old initproc hn0
        rw [h1, h2]
        exact h.init
      nextpid := by
        have := h.nextpid
        omega
      pid := by
        intro p hp
        by_cases hpn : p = np
        · rw [hpn, ha.new.2.1]
          omega
        · have := ha.pid_lt h hpn hp
          have := ha.new.2.1
          omega
      inj := ha.inj h
      gone := by
        intro pid hgone
        have := h.gone pid hgone
        exact ⟨this.1, by omega⟩
      here := fun p hp hz => show g.gone _ = false from ha.here h p hp hz
      orphan := ha.orphan h
      child := by
        intro p hp hp0 hfree'
        have hpn : p ≠ np := fun hpn => hfree' i ((ha.path i p).2 (.inr ⟨rfl, hpn⟩))
        exact ha.parented hpn (h.child p ((ha.old p hpn).1 ▸ hp) hp0 fun j hj =>
          hfree' j ((ha.path j p).2 (.inl hj))) _
      pending := ha.pending h }

/-- A slot that no published process has becomes UNUSED. -/
theorem Inv.clear (h : Inv s g) (hnl : ¬Live (s.ptable np).state) (hst : p.state = .unused)
    (hparent : p.parent = none) (hpath : ∀ q, s.path i = .allocated q → q = np)
    (hshape : Shape ((s.set np p).go i .user)) : Inv ((s.set np p).go i .user) g := by
  have hn0 : initproc ≠ np := by
    rintro rfl
    exact hnl h.init.1
  have hold : ∀ j q, ((s.set np p).go i .user).path j = .allocated q → s.path j = .allocated q := by
    intro j q hj
    by_cases hji : j = i
    · subst hji
      simp at hj
    · simpa [hji] using hj
  have hused : ∀ q, (((s.set np p).go i .user).ptable q).state ≠ .unused → q ≠ np := by
    rintro q hq rfl
    simp [hst] at hq
  exact
    { shape := hshape
      init := by simpa [hn0] using h.init
      nextpid := h.nextpid
      pid := by
        intro q hq
        have hqn := hused q hq
        simpa [hqn] using h.pid q (by simpa [hqn] using hq)
      inj := by
        intro q r hq hr hqr
        have hqn := hused q hq
        have hrn := hused r hr
        exact h.inj q r (by simpa [hqn] using hq) (by simpa [hrn] using hr)
          (by simpa [hqn, hrn] using hqr)
      gone := h.gone
      here := by
        intro q hq hz
        have hqn := hused q hq
        simpa [hqn] using h.here q (by simpa [hqn] using hq) (by simpa [hqn] using hz)
      orphan := by
        intro q hq
        by_cases hqn : q = np
        · subst hqn
          simpa using hparent
        · simp only [State.go_ptable, State.set_ptable, Function.update_of_ne hqn] at hq ⊢
          exact h.orphan q (hq.imp_right fun ⟨j, hj⟩ => ⟨j, hold j q hj⟩)
      child := by
        intro q hq hq0 hfree
        have hqn := hused q hq
        refine (h.child q (by simpa [hqn] using hq) hq0 fun j hj => ?_).congr (by simp [hqn])
          (fun r hl => ?_) rfl
        · by_cases hji : j = i
          · subst hji
            exact hqn (hpath q hj)
          · exact hfree j (by simpa [hji] using hj)
        · have hrn : r ≠ np := by
            rintro rfl
            exact hnl hl
          simpa [hrn] using hl
      pending := by
        intro j q hj
        have hj' := hold j q hj
        have hjn : j ≠ np := by
          rintro rfl
          exact hnl (h.shape.busy j (by simp [hj']))
        simpa [hjn] using h.pending j q hj' }

/-- `fork` copies the parent. -/
theorem Inv.forkCopy (h : Inv s g) (hrun : (s.ptable i).state = .running)
    (hpath : s.path i = .allocated np)
    (hshape : Shape ((s.set np (forkCopy i (s.ptable i) (s.ptable np))).go i (.copied np))) :
    Inv ((s.set np (forkCopy i (s.ptable i) (s.ptable np))).go i (.copied np)) g := by
  have hemb := h.shape.embryo i np (.inl hpath)
  have hni : i ≠ np := by
    rintro rfl
    rw [hrun] at hemb
    cases hemb
  have hn0 : initproc ≠ np := by
    rintro rfl
    exact Live.ne_embryo h.init.1 hemb
  generalize hs' : (s.set np (Ptable.forkCopy i (s.ptable i) (s.ptable np))).go i (.copied np) = s'
    at hshape
  have hst : ∀ q, (s'.ptable q).state = (s.ptable q).state ∧
      (s'.ptable q).pid = (s.ptable q).pid := by
    intro q
    subst hs'
    by_cases hqn : q = np
    · subst hqn
      simp
    · simp [hqn]
  have hparent : ∀ q, q ≠ np → (s'.ptable q).parent = (s.ptable q).parent := by
    intro q hqn
    subst hs'
    simp [hqn]
  have hold : ∀ j q, s'.path j = .allocated q ↔ s.path j = .allocated q ∧ j ≠ i := by
    intro j q
    subst hs'
    by_cases hji : j = i
    · subst hji
      simp
    · simp [hji]
  have hnext : s'.nextpid = s.nextpid := by rw [← hs']; rfl
  exact
    { shape := hshape
      init := by
        rw [(hst _).1, (hst _).2]
        exact h.init
      nextpid := hnext ▸ h.nextpid
      pid := by
        intro q hq
        rw [(hst q).2, hnext]
        exact h.pid q ((hst q).1 ▸ hq)
      inj := by
        intro q r hq hr hqr
        exact h.inj q r ((hst q).1 ▸ hq) ((hst r).1 ▸ hr) (by rw [← (hst q).2, ← (hst r).2, hqr])
      gone := by
        intro pid hgone
        rw [hnext]
        exact h.gone pid hgone
      here := by
        intro q hq hz
        rw [(hst q).2]
        exact h.here q ((hst q).1 ▸ hq) ((hst q).1 ▸ hz)
      orphan := by
        intro q hq
        have hqn : q ≠ np := by
          rintro rfl
          rcases hq with hq | ⟨j, hj⟩
          · rw [(hst q).1, hemb] at hq
            cases hq
          · obtain ⟨hj, hji⟩ := (hold j q).1 hj
            exact hji (h.shape.one j i q (.inl hj) (.inl hpath))
        rw [hparent q hqn]
        refine h.orphan q ?_
        rcases hq with hq | ⟨j, hj⟩
        · exact .inl ((hst q).1 ▸ hq)
        · exact .inr ⟨j, ((hold j q).1 hj).1⟩
      child := by
        intro q hq hq0 hfree
        by_cases hqn : q = np
        · subst hqn
          refine ⟨i, by simp [← hs'], ?_, ?_⟩
          · rw [(hst i).1]
            exact .of_running hrun
          · rw [(hst i).2, h.pending i q hpath, Record.heir,
              h.here i (by simp [hrun]) (by simp [hrun])]
            rfl
        · refine (h.child q ((hst q).1 ▸ hq) hq0 fun j hj => ?_).congr (hparent q hqn)
            (fun r hl => ⟨(hst r).1 ▸ hl, (hst r).2⟩) rfl
          by_cases hji : j = i
          · rw [hji, hpath] at hj
            cases hj
            exact hqn rfl
          · exact hfree j ((hold j q).2 ⟨hj, hji⟩)
      pending := by
        intro j q hj
        rw [(hst j).2]
        exact h.pending j q ((hold j q).1 hj).1 }

/-- No process but `init` has its pid. -/
theorem Inv.pid_ne_one (h : Inv s g) (hrun : (s.ptable i).state = .running) (hi : i ≠ initproc) :
    (s.ptable i).pid ≠ 1 := fun hone =>
  hi (h.inj i initproc (by simp [hrun]) (Live.ne_unused h.init.1) (hone.trans h.init.2.symm))

/-- `exit` hands the children of process `i`, whose forker is gone now, to `init`. -/
theorem Parented.exit {p : Slot} (hp : Parented s g p) (h : Inv s g)
    (hrun : (s.ptable i).state = .running) (hi : i ≠ initproc) :
    Parented { s with ptable := exit i s.ptable } (g.after s (.exit i)) p := by
  obtain ⟨q, hq, hl, hpid⟩ := hp
  by_cases hqi : q = i
  · subst hqi
    refine ⟨initproc, by simp [hq], ?_, ?_⟩
    · show Live (Ptable.exit q s.ptable initproc).state
      rw [exit_state hi.symm]
      exact h.init.1
    · show (Ptable.exit q s.ptable initproc).pid = _
      rw [exit_pid, h.init.2]
      have hfork : g.forker p = (s.ptable q).pid := by
        by_cases hg : g.gone (g.forker p) = true
        · rw [Record.heir, if_pos hg] at hpid
          exact absurd hpid (h.pid_ne_one hrun hi)
        · rw [Record.heir, if_neg hg] at hpid
          exact hpid.symm
      simp [Record.heir, Record.after, hfork]
  · refine ⟨q, by simp [hq, hqi], ?_, ?_⟩
    · show Live (Ptable.exit i s.ptable q).state
      rw [exit_state hqi]
      exact hl
    · show (Ptable.exit i s.ptable q).pid = _
      rw [exit_pid, hpid]
      have hne : g.gone (g.forker p) = false → g.forker p ≠ (s.ptable i).pid := by
        intro hg hfork
        rw [Record.heir, hg] at hpid
        exact hqi (h.inj q i (Live.ne_unused hl) (by simp [hrun]) (hpid.trans hfork))
      by_cases hg : g.gone (g.forker p) = true
      · simp [Record.heir, Record.after, Function.update_apply, hg]
      · have hg : g.gone (g.forker p) = false := by simpa using hg
        simp [Record.heir, Record.after, hne hg, hg]

/-- Process `i` exits, and its children go to `init`. -/
theorem Inv.exit (h : Inv s g) (hrun : (s.ptable i).state = .running) (hi : i ≠ initproc)
    (hshape : Shape { s with ptable := exit i s.ptable }) :
    Inv { s with ptable := exit i s.ptable } (g.after s (.exit i)) := by
  have hun : ∀ p, (Ptable.exit i s.ptable p).state ≠ .unused → (s.ptable p).state ≠ .unused := by
    intro p hp
    by_cases hpi : p = i
    · simp [hpi, hrun]
    · rwa [← exit_state hpi]
  exact
    { shape := hshape
      init := by
        show Live (Ptable.exit i s.ptable initproc).state ∧ _ = _
        rw [exit_state hi.symm, exit_pid]
        exact h.init
      nextpid := h.nextpid
      pid := by
        intro p hp
        show (Ptable.exit i s.ptable p).pid < _
        rw [exit_pid]
        exact h.pid p (hun p hp)
      inj := by
        intro p q hp hq hpq
        exact h.inj p q (hun p hp) (hun q hq) (by simpa using hpq)
      gone := by
        intro pid hgone
        by_cases hpid : pid = (s.ptable i).pid
        · subst hpid
          exact ⟨h.pid_ne_one hrun hi, h.pid i (by simp [hrun])⟩
        · exact h.gone pid (by simpa [Record.after, hpid] using hgone)
      here := by
        intro p hp hz
        have hpi : p ≠ i := by
          rintro rfl
          exact hz exit_self
        have hne : (s.ptable p).pid ≠ (s.ptable i).pid := fun hpid =>
          hpi (h.inj p i (hun p hp) (by simp [hrun]) hpid)
        show (g.after s (.exit i)).gone (Ptable.exit i s.ptable p).pid = false
        simpa [Record.after, hne] using
          h.here p (hun p hp) fun hz' => hz ((exit_state hpi).trans hz')
      orphan := by
        intro p hp
        have hnone : (s.ptable p).parent = none := by
          refine h.orphan p (hp.imp_left fun hp => ?_)
          by_contra hne
          by_cases hpi : p = i
          · subst hpi
            have hz : (Ptable.exit p s.ptable p).state = .unused := hp
            rw [exit_self] at hz
            cases hz
          · exact hne ((exit_state hpi).symm.trans hp)
        show (Ptable.exit i s.ptable p).parent = none
        simp [hnone]
      child := fun p hp hp0 hfree => (h.child p (hun p hp) hp0 hfree).exit h hrun hi
      pending := by
        intro j np hj
        show _ = (Ptable.exit i s.ptable j).pid
        rw [exit_pid]
        exact h.pending j np hj }

/-- Every event keeps the invariant. -/
theorem Inv.step (h : Inv s g) (hs : Step s e s') : Inv s' (g.after s e) := by
  have hshape := h.shape.step hs
  cases hs with
  | reschedule hold hnew =>
    refine h.quiet hshape (.set rfl rfl ?_ (fun _ => hnew) fun hz => ?_)
    · exact iff_of_false (Live.ne_unused hnew) (Live.ne_unused hold)
    · exact absurd hz (Live.ne_zombie hold)
  | kill => exact h.quiet hshape (.set rfl rfl .rfl id id)
  | forkAlloc hready hpath hfree => exact h.forkAlloc hready hpath hfree rfl hshape
  | forkNone hready hpath hnone =>
    simp only [Record.after, hnone]
    exact h.quiet hshape (.set rfl rfl .rfl id id)
  | @forkFail i np hrun hpath =>
    refine h.clear (not_live_embryo (h.shape.embryo i np (.inl hpath))) rfl ?_ ?_ hshape
    · exact h.orphan np (.inr ⟨i, hpath⟩)
    · intro q hq
      rw [hpath] at hq
      cases hq
      rfl
  | forkCopy hrun hpath => exact h.forkCopy hrun hpath hshape
  | @forkPublish i np hrun hpath =>
    have hemb := h.shape.embryo i np (.inr hpath)
    have hset : Quiet s (s.set np { s.ptable np with state := .runnable }) :=
      .set rfl rfl (by simp [hemb]) (fun _ => .inr (.inl rfl)) (by simp [hemb])
    exact h.quiet hshape (hset.trans (.go (fun q hq => by simp [hpath] at hq) (by simp)))
  | exit hrun hpath hne => exact h.exit hrun hne hshape
  | @waitCall i a hready hpath =>
    have hset : Quiet s (s.set i (s.trapped i a)) := .set rfl rfl .rfl id id
    exact h.quiet hshape (hset.trans (.go (fun q hq => by simp [hpath] at hq) (by simp)))
  | @waitReap i p hrun hpath hz =>
    obtain ⟨-, hz⟩ := zombieChild_some hz
    refine h.clear (not_live_zombie hz) rfl rfl (fun q hq => ?_) hshape
    rw [hpath] at hq
    cases hq
  | waitNone hrun hpath =>
    exact h.quiet hshape (.go (fun q hq => by simp [hpath] at hq) (by simp))
  | @waitSleep i hrun =>
    exact h.quiet hshape (.set rfl rfl (by simp [hrun]) (fun _ => .inl rfl) (by simp [hrun]))
  | exec => exact h.quiet hshape (.set rfl rfl .rfl id id)
  | welcomeFunction => exact h.quiet hshape (.set rfl rfl .rfl id id)
  | @welcomeDone i a =>
    have hsame : (sysWelcomeDone (s.trapped i a)).2.pid = (s.ptable i).pid ∧
        (sysWelcomeDone (s.trapped i a)).2.parent = (s.ptable i).parent ∧
        (sysWelcomeDone (s.trapped i a)).2.state = (s.ptable i).state := by
      unfold sysWelcomeDone
      split <;> exact ⟨rfl, rfl, rfl⟩
    obtain ⟨h1, h2, h3⟩ := hsame
    exact h.quiet hshape (.set h1 h2 (by rw [h3]) (by rw [h3]; exact id) (by rw [h3]; exact id))

end Steps

theorem Inv.start {s : State} (hb : Booted s) : Inv s ⟨fun _ => 0, fun _ => false⟩ := by
  have h0 : ∀ p, (s.ptable p).state ≠ .unused → p = initproc := by
    intro p hp
    by_contra hne
    exact hp (hb.rest p hne)
  exact
    { shape := Shape.start hb
      init := ⟨.inr (.inl hb.init), hb.pid⟩
      nextpid := by rw [hb.nextpid]
      pid := by
        intro p hp
        rw [h0 p hp, hb.pid, hb.nextpid]
        decide
      inj := fun p q hp hq _ => (h0 p hp).trans (h0 q hq).symm
      gone := fun pid hg => by cases hg
      here := fun _ _ _ => rfl
      orphan := fun p _ => hb.parent p
      child := fun p hp hp0 _ => absurd (h0 p hp) hp0
      pending := fun i np hi => by simp [hb.path] at hi }

theorem inv_reach {x : State × Record} (hr : recorded.Reach x) : Inv x.1 x.2 := by
  refine Lts.Reach.invariant (I := fun x => Inv x.1 x.2) ?_ ?_ hr
  · rintro ⟨s, g⟩ ⟨hb, hg⟩
    obtain rfl : g = _ := hg
    exact Inv.start hb
  · rintro ⟨s, g⟩ e ⟨s', g'⟩ hi ⟨hst, hg⟩
    obtain rfl : g' = g.after s e := hg
    exact hi.step hst

/-- A slot in use has its pid alone. -/
theorem Inv.infoSlot_eq {s : State} {g : Record} (h : Inv s g) {p : Slot}
    (hp : (s.ptable p).state ≠ .unused) : infoSlot (s.ptable p).pid s.ptable = some p := by
  cases hf : infoSlot (s.ptable p).pid s.ptable with
  | none =>
    have := find_none hf p
    simp [hp] at this
  | some q =>
    obtain ⟨hq, hq'⟩ := infoSlot_some hf
    rw [h.inj q p hq' hp hq]

theorem Inv.law_iff {s : State} {g : Record} (h : Inv s g) (pid : Int) :
    Law s g pid ↔ ∀ i p, s.path i = .allocated p → (s.ptable p).pid ≠ pid := by
  constructor
  · rintro hlaw i p hp rfl
    have hemb := h.shape.embryo i p (.inl hp)
    have hused : (s.ptable p).state ≠ .unused := by simp [hemb]
    have hone : (s.ptable p).pid ≠ 1 := by
      intro hone
      have hp0 := h.inj p initproc hused (Live.ne_unused h.init.1) (hone.trans h.init.2.symm)
      exact Live.ne_embryo h.init.1 (hp0 ▸ hemb)
    obtain ⟨q, info, hq, -⟩ := hlaw p (h.infoSlot_eq hused) hone
    rw [h.orphan p (.inr ⟨i, hp⟩)] at hq
    cases hq
  · intro hfree p hfound hone
    obtain ⟨hpid, hused⟩ := infoSlot_some hfound
    have hp0 : p ≠ initproc := by
      rintro rfl
      exact hone (hpid.symm.trans h.init.2)
    obtain ⟨q, hq, hl, hqpid⟩ := h.child p hused hp0 fun i hi => hfree i p hi hpid
    refine ⟨q, ⟨(s.ptable q).pid, (s.ptable p).sz, (s.ptable p).inctxt⟩, hq, Live.ne_unused hl, ?_,
      hqpid⟩
    unfold procInfo
    rw [hfound]
    dsimp only
    rw [if_neg hone, hq]

/-- **Exactly when `ProcInfo` finds the parent**: when no `fork` has given the pid to a slot and
    has still to copy the parent. -/
theorem procInfo_law {x : State × Record} (hr : recorded.Reach x) (pid : Int) :
    Law x.1 x.2 pid ↔ ∀ i p, x.1.path i = .allocated p → (x.1.ptable p).pid ≠ pid :=
  (inv_reach hr).law_iff pid

/-- The first process is in `fork`, and the child has its pid but no parent. -/
theorem window : ∃ x, recorded.Reach x ∧ x.1.path 0 = .allocated 1 ∧ (x.1.ptable 1).pid = 2 := by
  have h0 : recorded.Reach (boot, ⟨fun _ => 0, fun _ => false⟩) := .start ⟨boot_booted, rfl⟩
  have h1 := h0.ghost (@Step.reschedule _ 0 .running (.inr (.inl rfl)) (.inr (.inr rfl)))
  have h2 := h1.ghost (@Step.forkAlloc _ 0 1 16 ⟨rfl, rfl⟩ rfl (by decide))
  exact ⟨_, h2, rfl, rfl⟩

theorem procInfo_window : ¬∀ x, recorded.Reach x → ∀ pid, Law x.1 x.2 pid := by
  intro hall
  obtain ⟨x, hr, hpath, hpid⟩ := window
  exact ((inv_reach hr).law_iff 2).1 (hall x hr 2) 0 1 hpath hpid

theorem procInfo_law_window : ∃ x, recorded.Reach x ∧ x.1.path 0 = .allocated 1 ∧
    (Law x.1 x.2 2 ↔ ∀ i p, x.1.path i = .allocated p → (x.1.ptable p).pid ≠ 2) := by
  obtain ⟨x, hr, hpath, -⟩ := window
  exact ⟨x, hr, hpath, procInfo_law hr 2⟩

end OsCodes.ProcInfo
