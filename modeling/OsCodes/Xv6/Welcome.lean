/-
  Welcome functions: `welcomeFunction` says where the children of a process start, and
  `welcomeDone` takes such a child back to the point after the `fork` call.

  A record keeps, for each slot, the function that its process has registered, whether it was
  forked, whether it is still in a welcome function, and where its `fork` call returns to.
  `fork` notes the return address of every child, so `welcomeDone` obeys the record for the first
  process and for a child in its welcome function, and for no other.

  The event of a `fork` sets `eip` of the child to the registered function and `return_addr` to
  where the parent goes on; `sys_welcomeDone` puts `return_addr` into `eip` for every caller that
  has one.  So the law has an exact condition on the caller: a process that no `fork` made gets
  -1, as it should, a child in its welcome function goes back, and any other child jumps to the
  same place although it should not.  `Settled` and `Pending` are the invariant, for published
  processes and for a slot being filled in.
-/
import OsCodes.Xv6.Ptable

namespace OsCodes.Welcome

open Ptable

/-- What the processes have done, by slot. -/
structure Record where
  registered : Slot → Nat
  forked : Slot → Bool
  inWelcome : Slot → Bool
  afterFork : Slot → Nat

/-- The record after an event in `s`.  A child is in a welcome function from its start if its
    parent has registered one. -/
def Record.after (s : State) (g : Record) : Event → Record
  | .forkAlloc i a =>
    match unusedSlot s.ptable with
    | none => g
    | some np =>
      { registered := Function.update g.registered np 0
        forked := Function.update g.forked np true
        inWelcome := Function.update g.inWelcome np (g.registered i ≠ 0)
        afterFork := Function.update g.afterFork np (a + 2) }
  | .welcomeFunction i _ ptr => { g with registered := Function.update g.registered i ptr }
  | .welcomeDone i _ => { g with inWelcome := Function.update g.inWelcome i false }
  | _ => g

/-- The kernel with its record. -/
def recorded : Lts (State × Record) Event :=
  system.withGhost ⟨fun _ => 0, fun _ => false, fun _ => false, fun _ => 0⟩ Record.after

/-- What is wanted of a `welcomeDone` that process `i` makes at `a`: a child that is in its
    welcome function goes on after the `fork` call, and any other caller gets -1. -/
def Law (s : State) (g : Record) (i : Slot) (a : Nat) : Prop :=
  sysWelcomeDone (s.trapped i a) =
    if g.inWelcome i then (0, { s.trapped i a with eip := g.afterFork i })
    else (-1, s.trapped i a)

/-- The fields of a process agree with the record. -/
structure Settled (g : Record) (i : Slot) (p : Proc) : Prop where
  welcome : p.welcomeAddr = g.registered i
  child : g.forked i = true → p.returnAddr = g.afterFork i ∧ g.afterFork i ≠ 0
  first : g.forked i = false → p.returnAddr = 0 ∧ g.inWelcome i = false

/-- The record of slot `np` while process `i` still has to fill it in. -/
structure Pending (s : State) (g : Record) (i np : Slot) : Prop where
  welcome : (s.ptable np).welcomeAddr = g.registered np
  forked : g.forked np = true
  after : g.afterFork np = (s.ptable i).eip
  pos : g.afterFork np ≠ 0
  inWelcome : g.inWelcome np = true ↔ g.registered i ≠ 0

/-- What the fields of every process say, settled or still to be filled in. -/
structure Inv (s : State) (g : Record) : Prop where
  shape : Shape s
  settled : ∀ p, (s.ptable p).state ≠ .unused → (∀ i, s.path i ≠ .allocated p) →
    Settled g p (s.ptable p)
  pending : ∀ i np, s.path i = .allocated np → Pending s g i np

section Steps

variable {s s' : State} {g : Record} {i np : Slot} {p : Proc} {e : Event}

theorem Settled.congr {q : Proc} (h : Settled g i p) (hw : q.welcomeAddr = p.welcomeAddr)
    (hr : q.returnAddr = p.returnAddr) : Settled g i q where
  welcome := hw.trans h.welcome
  child hf := hr ▸ h.child hf
  first hf := hr ▸ h.first hf

/-- An event that the record does not speak of. -/
theorem Inv.quiet (h : Inv s g) (hshape : Shape s')
    (hslot : ∀ p, (s'.ptable p).state ≠ .unused → (s.ptable p).state ≠ .unused ∧
      (s'.ptable p).welcomeAddr = (s.ptable p).welcomeAddr ∧
      (s'.ptable p).returnAddr = (s.ptable p).returnAddr)
    (hpath : ∀ i np, s'.path i = .allocated np →
      s.path i = .allocated np ∧ (s'.ptable i).eip = (s.ptable i).eip)
    (hback : ∀ i np, s.path i = .allocated np →
      s'.path i = .allocated np ∨ (s'.ptable np).state = .unused) : Inv s' g where
  shape := hshape
  settled p hp hfree := by
    obtain ⟨hne, hw, hr⟩ := hslot p hp
    refine (h.settled p hne fun i hi => ?_).congr hw hr
    rcases hback i p hi with hi' | hun
    · exact hfree i hi'
    · exact hp hun
  pending i np hi := by
    obtain ⟨hi', heip⟩ := hpath i np hi
    have hemb := hshape.embryo i np (.inl hi)
    obtain ⟨-, hw, -⟩ := hslot np (by simp [hemb])
    have hpend := h.pending i np hi'
    exact ⟨hw.trans hpend.welcome, hpend.forked, hpend.after.trans heip.symm, hpend.pos,
      hpend.inWelcome⟩

/-- One slot is overwritten, and no address in it. -/
theorem Inv.quiet_set (h : Inv s g) (hshape : Shape (s.set i p))
    (hst : p.state ≠ .unused → (s.ptable i).state ≠ .unused)
    (hw : p.welcomeAddr = (s.ptable i).welcomeAddr)
    (hr : p.returnAddr = (s.ptable i).returnAddr)
    (heip : p.eip = (s.ptable i).eip ∨ s.path i = .user) : Inv (s.set i p) g := by
  refine h.quiet hshape (fun q hq => ?_) (fun j np hj => ⟨hj, ?_⟩) fun j np hj => .inl hj
  · by_cases hqi : q = i
    · subst hqi
      have hq : p.state ≠ .unused := by simpa using hq
      simpa using ⟨hst hq, hw, hr⟩
    · simpa [hqi] using hq
  · by_cases hji : j = i
    · subst hji
      have hj : s.path j = .allocated np := hj
      rcases heip with heip | huser
      · simpa using heip
      · rw [huser] at hj
        cases hj
    · simp [hji]

/-- A process moves on in its system call, and one slot is overwritten. -/
theorem Inv.quiet_go {q : Slot} {w : Path} (h : Inv s g) (hshape : Shape ((s.set q p).go i w))
    (hst : p.state ≠ .unused → (s.ptable q).state ≠ .unused)
    (hw : p.welcomeAddr = (s.ptable q).welcomeAddr)
    (hr : p.returnAddr = (s.ptable q).returnAddr)
    (heip : p.eip = (s.ptable q).eip ∨ q = i) (hnew : ∀ np, w ≠ .allocated np)
    (hold : ∀ np, s.path i = .allocated np → np = q ∧ p.state = .unused) :
    Inv ((s.set q p).go i w) g := by
  refine h.quiet hshape (fun r hr' => ?_) (fun j np hj => ?_) fun j np hj => ?_
  · by_cases hrq : r = q
    · subst hrq
      have hr' : p.state ≠ .unused := by simpa using hr'
      simpa using ⟨hst hr', hw, hr⟩
    · simpa [hrq] using hr'
  · by_cases hji : j = i
    · subst hji
      exact absurd (by simpa using hj) (hnew np)
    · refine ⟨by simpa [hji] using hj, ?_⟩
      by_cases hjq : j = q
      · subst hjq
        rcases heip with heip | hqi
        · simpa using heip
        · exact absurd hqi hji
      · simp [hjq]
  · by_cases hji : j = i
    · subst hji
      obtain ⟨rfl, hun⟩ := hold np hj
      right
      simpa using hun
    · left
      simpa [hji] using hj

/-- `allocproc` gives process `i` a slot. -/
theorem Inv.forkAlloc {a : Nat} (h : Inv s g) (hready : Ready s i) (hpath : s.path i = .user)
    (hfree : unusedSlot s.ptable = some np)
    (hs' : s' = { ((s.set i (s.trapped i a)).set np (allocproc s.nextpid (s.ptable np))).go i
      (.allocated np) with nextpid := s.nextpid + 1 }) (hshape : Shape s') :
    Inv s' (g.after s (.forkAlloc i a)) := by
  have hun := unusedSlot_some hfree
  have hni : i ≠ np := by
    rintro rfl
    rw [hready.1] at hun
    cases hun
  subst hs'
  simp only [Record.after, hfree]
  refine ⟨hshape, fun p hp hpfree => ?_, fun j np' hj => ?_⟩
  · have hpn : p ≠ np := by
      rintro rfl
      exact hpfree i (by simp)
    have hold : ∀ j, s.path j ≠ .allocated p := by
      intro j hj
      by_cases hji : j = i
      · rw [hji, hpath] at hj
        cases hj
      · exact hpfree j (by simpa [hji] using hj)
    by_cases hpi : p = i
    · subst hpi
      obtain ⟨h1, h2, h3⟩ := h.settled p (by simp [hready.1]) hold
      exact ⟨by simpa [hpn, State.trapped] using h1, by simpa [hpn, State.trapped] using h2,
        by simpa [hpn, State.trapped] using h3⟩
    · obtain ⟨h1, h2, h3⟩ := h.settled p (by simpa [hpn, hpi] using hp) hold
      exact ⟨by simpa [hpn, hpi] using h1, by simpa [hpn, hpi] using h2,
        by simpa [hpn, hpi] using h3⟩
  · by_cases hji : j = i
    · subst hji
      obtain rfl : np' = np := by simpa [eq_comm] using hj
      constructor <;> simp [hni, allocproc, State.trapped]
    · have hj : s.path j = .allocated np' := by simpa [hji] using hj
      have hemb := h.shape.embryo j np' (.inl hj)
      have hlive := h.shape.busy j (by simp [hj])
      have hnn : np' ≠ np := by
        rintro rfl
        rw [hun] at hemb
        cases hemb
      have hjn : j ≠ np := by
        rintro rfl
        exact not_live_unused hun hlive
      have hn'i : np' ≠ i := by
        rintro rfl
        rw [hready.1] at hemb
        cases hemb
      obtain ⟨h1, h2, h3, h4, h5⟩ := h.pending j np' hj
      exact ⟨by simpa [hnn, hn'i] using h1, by simpa [hnn] using h2,
        by simpa [hnn, hjn, hji] using h3, by simpa [hnn] using h4, by simpa [hnn, hjn] using h5⟩

/-- `fork` copies the parent. -/
theorem Inv.forkCopy (h : Inv s g) (hpath : s.path i = .allocated np)
    (hs' : s' = (s.set np (forkCopy i (s.ptable i) (s.ptable np))).go i (.copied np))
    (hshape : Shape s') : Inv s' g := by
  have hemb := h.shape.embryo i np (.inl hpath)
  subst hs'
  refine ⟨hshape, fun p hp hpfree => ?_, fun j np' hj => ?_⟩
  · by_cases hpn : p = np
    · subst hpn
      obtain ⟨h1, h2, h3, h4, -⟩ := h.pending i p hpath
      exact ⟨by simpa using h1, fun _ => ⟨by simpa using h3.symm, h4⟩,
        fun hf => by rw [h2] at hf; cases hf⟩
    · have hold : ∀ j, s.path j ≠ .allocated p := by
        intro j hj
        by_cases hji : j = i
        · rw [hji, hpath] at hj
          exact hpn (by simpa [eq_comm] using hj)
        · exact hpfree j (by simpa [hji] using hj)
      simpa [hpn] using h.settled p (by simpa [hpn] using hp) hold
  · have hji : j ≠ i := by
      rintro rfl
      simp at hj
    have hold : s.path j = .allocated np' := by simpa [hji] using hj
    have hnn : np' ≠ np := by
      rintro rfl
      exact hji (h.shape.one j i np' (.inl hold) (.inl hpath))
    have hjn : j ≠ np := by
      rintro rfl
      exact not_live_embryo hemb (h.shape.busy j (by simp [hold]))
    obtain ⟨h1, h2, h3, h4, h5⟩ := h.pending j np' hold
    exact ⟨by simpa [hnn] using h1, h2, by simpa [hjn] using h3, h4, h5⟩

/-- Process `i` changes its own slot and its own record. -/
theorem Inv.own {g' : Record} (h : Inv s g) (hrun : (s.ptable i).state = .running)
    (hpath : s.path i = .user) (hst : p.state = (s.ptable i).state)
    (hg : ∀ q, q ≠ i → g'.registered q = g.registered q ∧ g'.forked q = g.forked q ∧
      g'.inWelcome q = g.inWelcome q ∧ g'.afterFork q = g.afterFork q)
    (hp : Settled g i (s.ptable i) → Settled g' i p) : Inv (s.set i p) g' := by
  refine ⟨h.shape.set_same hst, fun q hq hfree => ?_, fun j np hj => ?_⟩
  · by_cases hqi : q = i
    · subst hqi
      simpa using hp (h.settled q (by simp [hrun]) hfree)
    · obtain ⟨hreg, hfork, hin, haft⟩ := hg q hqi
      obtain ⟨h1, h2, h3⟩ := h.settled q (by simpa [hqi] using hq) hfree
      exact ⟨by simpa [hqi, hreg] using h1, by simpa [hqi, hfork, haft] using h2,
        by simpa [hqi, hfork, hin] using h3⟩
  · have hold : s.path j = .allocated np := hj
    have hji : j ≠ i := by
      rintro rfl
      rw [hpath] at hold
      cases hold
    have hni : np ≠ i := by
      rintro rfl
      have hemb := h.shape.embryo j np (.inl hold)
      rw [hrun] at hemb
      cases hemb
    obtain ⟨hreg, hfork, hin, haft⟩ := hg np hni
    obtain ⟨h1, h2, h3, h4, h5⟩ := h.pending j np hold
    exact ⟨by simpa [hni, hreg] using h1, hfork.trans h2, by simpa [hji, haft] using h3,
      by simpa [haft] using h4, by rw [hin, (hg j hji).1]; exact h5⟩

theorem Inv.welcomeFunction {a ptr : Nat} (h : Inv s g) (hready : Ready s i)
    (hpath : s.path i = .user) :
    Inv (s.set i (sysWelcomeFunction ptr (s.trapped i a)).2)
      (g.after s (.welcomeFunction i a ptr)) := by
  refine h.own hready.1 hpath rfl (fun q hq => ?_) fun hset => ?_
  · simp [Record.after, hq]
  · exact ⟨by simp [Record.after, sysWelcomeFunction], hset.child, hset.first⟩

theorem sysWelcomeDone_fields (p : Proc) : (sysWelcomeDone p).2.state = p.state ∧
    (sysWelcomeDone p).2.welcomeAddr = p.welcomeAddr ∧
    (sysWelcomeDone p).2.returnAddr = p.returnAddr := by
  unfold sysWelcomeDone
  split <;> exact ⟨rfl, rfl, rfl⟩

theorem Inv.welcomeDone {a : Nat} (h : Inv s g) (hready : Ready s i) (hpath : s.path i = .user) :
    Inv (s.set i (sysWelcomeDone (s.trapped i a)).2) (g.after s (.welcomeDone i a)) := by
  obtain ⟨hst, hw, hr⟩ := sysWelcomeDone_fields (s.trapped i a)
  refine h.own hready.1 hpath hst (fun q hq => ?_) fun hset => ?_
  · simp [Record.after, hq]
  · have hnew : Settled (g.after s (.welcomeDone i a)) i (s.trapped i a) :=
      ⟨hset.welcome, hset.child, fun hf => ⟨(hset.first hf).1, by simp [Record.after]⟩⟩
    exact hnew.congr hw hr

/-- Every event keeps the invariant. -/
theorem Inv.step (h : Inv s g) (hs : Step s e s') : Inv s' (g.after s e) := by
  have hshape := h.shape.step hs
  cases hs with
  | reschedule hold =>
    exact h.quiet_set hshape (fun _ hun => not_live_unused hun hold) rfl rfl (.inl rfl)
  | kill => exact h.quiet_set hshape id rfl rfl (.inl rfl)
  | forkAlloc hready hpath hfree => exact h.forkAlloc hready hpath hfree rfl hshape
  | forkNone hready hpath hnone =>
    simp only [Record.after, hnone]
    exact h.quiet_set hshape id rfl rfl (.inr hpath)
  | @forkFail i np hrun hpath =>
    refine h.quiet_go hshape (fun hne => absurd rfl hne) rfl rfl (.inl rfl) (by simp) ?_
    intro np' hp
    rw [hpath] at hp
    cases hp
    exact ⟨rfl, rfl⟩
  | forkCopy hrun hpath => exact h.forkCopy hpath rfl hshape
  | @forkPublish i np hrun hpath =>
    have hemb := h.shape.embryo i np (.inr hpath)
    refine h.quiet_go hshape (fun _ => by simp [hemb]) rfl rfl (.inl rfl) (by simp) ?_
    intro np' hp
    rw [hpath] at hp
    cases hp
  | @exit i hrun hpath hne =>
    refine h.quiet hshape (fun p hp => ⟨?_, exit_welcomeAddr, exit_returnAddr⟩)
      (fun j np hj => ⟨hj, exit_eip⟩) fun j np hj => .inl hj
    by_cases hpi : p = i
    · simp [hpi, hrun]
    · rwa [← exit_state hpi]
  | waitCall hready hpath =>
    exact h.quiet_go hshape id rfl rfl (.inr rfl) (by simp) fun np hp => by simp [hpath] at hp
  | waitReap hrun hpath hz =>
    refine h.quiet_go hshape (fun hne => absurd rfl hne) rfl rfl (.inl rfl) (by simp) ?_
    exact fun np hp => by simp [hpath] at hp
  | @waitNone i hrun hpath =>
    refine h.quiet hshape (fun p hp => ⟨hp, rfl, rfl⟩) (fun j np hj => ?_) fun j np hj => ?_
    · by_cases hji : j = i
      · simp [hji] at hj
      · exact ⟨by simpa [hji] using hj, rfl⟩
    · by_cases hji : j = i
      · rw [hji, hpath] at hj
        cases hj
      · exact .inl (by simpa [hji] using hj)
  | waitSleep hrun => exact h.quiet_set hshape (fun _ => by simp [hrun]) rfl rfl (.inl rfl)
  | exec hready hpath => exact h.quiet_set hshape id rfl rfl (.inr hpath)
  | welcomeFunction hready hpath => exact h.welcomeFunction hready hpath
  | welcomeDone hready hpath => exact h.welcomeDone hready hpath

end Steps

theorem inv_reach {x : State × Record} (hr : recorded.Reach x) : Inv x.1 x.2 := by
  refine Lts.Reach.invariant (I := fun x => Inv x.1 x.2) ?_ ?_ hr
  · rintro ⟨s, g⟩ ⟨hb, hg⟩
    obtain rfl : g = _ := hg
    have hb : Booted s := hb
    refine ⟨Shape.start hb, fun p hp _ => ?_, fun i np hi => by simp [hb.path] at hi⟩
    have hp0 : p = initproc := by
      by_contra hne
      exact hp (hb.rest p hne)
    subst hp0
    exact ⟨hb.welcome, fun hf => by simp at hf, fun _ => ⟨hb.done, rfl⟩⟩
  · rintro ⟨s, g⟩ e ⟨s', g'⟩ hi ⟨hst, hg⟩
    obtain rfl : g' = g.after s e := hg
    exact hi.step hst

/-- A caller that is in its own code has settled fields. -/
theorem Inv.caller {s : State} {g : Record} {i : Slot} (h : Inv s g) (hready : Ready s i) :
    Settled g i (s.ptable i) := by
  refine h.settled i (by simp [hready.1]) fun j hj => ?_
  have hemb := h.shape.embryo j i (.inl hj)
  rw [hready.1] at hemb
  cases hemb

/-- A child whose parent has registered a function starts in it, and any other where the parent
    goes on. -/
theorem fork_starts {x : State × Record} (hr : recorded.Reach x) {i np : Slot}
    (hrun : (x.1.ptable i).state = .running) (hp : x.1.path i = .allocated np) :
    (forkCopy i (x.1.ptable i) (x.1.ptable np)).eip =
      if x.2.inWelcome np then x.2.registered i else x.2.afterFork np := by
  have h := inv_reach hr
  obtain ⟨-, -, h3, -, h5⟩ := h.pending i np hp
  have hset : Settled x.2 i (x.1.ptable i) := by
    refine h.settled i (by simp [hrun]) fun j hj => ?_
    have hemb := h.shape.embryo j i (.inl hj)
    rw [hrun] at hemb
    cases hemb
  have hreg : x.2.registered i ≠ 0 ↔ (x.1.ptable i).welcomeAddr ≠ 0 := by rw [hset.welcome]
  unfold forkCopy
  dsimp only
  by_cases hw : (x.1.ptable i).welcomeAddr ≠ 0
  · rw [if_pos hw, if_pos (h5.2 (hreg.2 hw))]
    exact hset.welcome
  · rw [if_neg hw, if_neg fun hin => hw (hreg.1 (h5.1 hin))]
    exact h3.symm

/-- **Exactly for whom `welcomeDone` is right**: for a process that no `fork` made, and for one
    that is in its welcome function. -/
theorem welcomeDone_law {x : State × Record} (hr : recorded.Reach x) {i : Slot} (a : Nat)
    (hready : Ready x.1 i) :
    Law x.1 x.2 i a ↔ (x.2.forked i = true → x.2.inWelcome i = true) := by
  have hset := (inv_reach hr).caller hready
  cases hf : x.2.forked i with
  | false =>
    obtain ⟨h0, hin⟩ := hset.first hf
    simp [Law, sysWelcomeDone, State.trapped, h0, hin]
  | true =>
    obtain ⟨hret, hne⟩ := hset.child hf
    cases hin : x.2.inWelcome i with
    | true => simp [Law, sysWelcomeDone, State.trapped, hret, hne, hin]
    | false => simp [Law, sysWelcomeDone, State.trapped, hret, hne, hin]

/-- The first process forks at 16 with no welcome function registered, and the child runs. -/
theorem plain_child : ∃ x, recorded.Reach x ∧ Ready x.1 1 ∧ x.1.path 1 = .user ∧
    x.2.forked 1 = true ∧ x.2.inWelcome 1 = false := by
  have h0 : recorded.Reach (boot, ⟨fun _ => 0, fun _ => false, fun _ => false, fun _ => 0⟩) :=
    .start ⟨boot_booted, rfl⟩
  have h1 := h0.ghost (@Step.reschedule _ 0 .running (.inr (.inl rfl)) (.inr (.inr rfl)))
  have h2 := h1.ghost (@Step.forkAlloc _ 0 1 16 ⟨rfl, rfl⟩ rfl (by decide))
  have h3 := h2.ghost (@Step.forkCopy _ 0 1 rfl rfl)
  have h4 := h3.ghost (@Step.forkPublish _ 0 1 rfl rfl)
  have h5 := h4.ghost (@Step.reschedule _ 1 .running (.inr (.inl rfl)) (.inr (.inr rfl)))
  exact ⟨_, h5, ⟨rfl, rfl⟩, rfl, rfl, rfl⟩

theorem welcomeDone_plain_child : ¬∀ x, recorded.Reach x → ∀ i a, Ready x.1 i →
    x.1.path i = .user → Law x.1 x.2 i a := by
  intro hall
  obtain ⟨x, hr, hready, hpath, hf, hin⟩ := plain_child
  have hlaw := hall x hr 1 0 hready hpath
  obtain ⟨hret, hne⟩ := ((inv_reach hr).caller hready).child hf
  simp [Law, sysWelcomeDone, State.trapped, hret, hne, hin] at hlaw

theorem welcomeDone_law_plain_child : ∃ x, recorded.Reach x ∧ x.2.forked 1 = true ∧
    (Law x.1 x.2 1 0 ↔ (x.2.forked 1 = true → x.2.inWelcome 1 = true)) := by
  obtain ⟨x, hr, hready, -, hf, -⟩ := plain_child
  exact ⟨x, hr, hf, welcomeDone_law hr 0 hready⟩

end OsCodes.Welcome
