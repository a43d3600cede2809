/-
  Welcome addresses and the images that they are taken from.

  `allocproc` clears `welcome_addr` and `return_addr` for a new process; `exec`, which replaces
  the image of a process, clears neither.  The record here keeps what each process has
  registered in the image that it runs, and whether it has replaced the one it was created with.

  There are two places where an address of an old image can be used: a `fork` starts the child at
  what its parent registered before `exec`, and `welcomeDone` goes back to what was noted when the
  child was created.  Each has its equivalence (`startsInImage_iff`, `returnsInImage_iff`) and its
  run, and `welcome_images` states both in every state of a run.
-/
import OsCodes.Xv6.Welcome

namespace OsCodes.Welcome

open Ptable

/-! ## The record -/

/-- By slot: the addresses registered since the process was created and since its last `exec`,
    the last one first, and whether it has called `exec` at all. -/
structure Images where
  registered : Slot → List Nat
  replaced : Slot → Bool

/-- The record after an event in `s`. -/
def Images.after (s : State) (m : Images) : Event → Images
  | .forkAlloc _ _ =>
    match unusedSlot s.ptable with
    | none => m
    | some np =>
      { registered := Function.update m.registered np []
        replaced := Function.update m.replaced np false }
  | .welcomeFunction i _ ptr =>
    { m with registered := Function.update m.registered i (ptr :: m.registered i) }
  | .exec i _ _ _ =>
    { registered := Function.update m.registered i []
      replaced := Function.update m.replaced i true }
  | _ => m

/-- The kernel with both records. -/
def imaged : Lts ((State × Record) × Images) Event :=
  recorded.withGhost ⟨fun _ => [], fun _ => false⟩ fun x m e => Images.after x.1 m e

/-- What is wanted of the `fork` by which process `i` fills slot `np`: the child starts at the
    point after the call, or at an address that `i` has registered in its image. -/
def StartsInImage (x : (State × Record) × Images) (i np : Slot) : Prop :=
  (forkCopy i (x.1.1.ptable i) (x.1.1.ptable np)).eip = x.1.2.afterFork np ∨
    (forkCopy i (x.1.1.ptable i) (x.1.1.ptable np)).eip ∈ x.2.registered i

/-- What is wanted of a `welcomeDone` that process `i` makes at `a`: it goes back only in the
    image in which it was created. -/
def ReturnsInImage (x : (State × Record) × Images) (i : Slot) (a : Nat) : Prop :=
  (sysWelcomeDone (x.1.1.trapped i a)).1 = 0 → x.2.replaced i = false

/-! ## The two records agree -/

/-- What a process has registered last, if it has registered anything in its image. -/
def Agree (g : Record) (m : Images) : Prop :=
  ∀ p, m.registered p ≠ [] → g.registered p ∈ m.registered p

theorem Agree.after {s : State} {g : Record} {m : Images} (h : Agree g m) (e : Event) :
    Agree (g.after s e) (m.after s e) := by
  intro p hp
  cases e with
  | forkAlloc i a =>
    cases hfree : unusedSlot s.ptable with
    | none =>
      simp only [Images.after, Record.after, hfree] at hp ⊢
      exact h p hp
    | some np =>
      simp only [Images.after, Record.after, hfree] at hp ⊢
      by_cases hpn : p = np
      · rw [hpn, Function.update_self] at hp
        exact absurd rfl hp
      · rw [Function.update_of_ne hpn] at hp
        rw [Function.update_of_ne hpn, Function.update_of_ne hpn]
        exact h p hp
  | welcomeFunction i a ptr =>
    simp only [Images.after, Record.after] at hp ⊢
    by_cases hpi : p = i
    · rw [hpi, Function.update_self, Function.update_self]
      exact List.mem_cons_self
    · rw [Function.update_of_ne hpi] at hp
      rw [Function.update_of_ne hpi, Function.update_of_ne hpi]
      exact h p hp
  | exec i a entry sz =>
    simp only [Images.after] at hp ⊢
    by_cases hpi : p = i
    · rw [hpi, Function.update_self] at hp
      exact absurd rfl hp
    · rw [Function.update_of_ne hpi] at hp ⊢
      exact h p hp
  | _ => exact h p hp

theorem agree_reach {x : (State × Record) × Images} (hr : imaged.Reach x) :
    Agree x.1.2 x.2 := by
  refine Lts.Reach.invariant (I := fun x => Agree x.1.2 x.2) ?_ ?_ hr
  · rintro ⟨x, m⟩ ⟨-, rfl⟩ p hp
    exact absurd rfl hp
  · rintro ⟨⟨s, g⟩, m⟩ e ⟨⟨s', g'⟩, m'⟩ h ⟨⟨-, hg⟩, hm⟩
    obtain rfl : g' = g.after s e := hg
    obtain rfl : m' = m.after s e := hm
    exact h.after e

theorem imaged_recorded {x : (State × Record) × Images} (hr : imaged.Reach x) :
    recorded.Reach x.1 := by
  induction hr with
  | start h => exact .start h.1
  | step _ hst ih => exact .step ih hst.1

/-! ## The law -/

/-- A child starts in its parent's image exactly when the parent has registered something in
    it, or what it registered before is no address at all, or the point after the call. -/
theorem startsInImage_iff {x : (State × Record) × Images} (hr : imaged.Reach x) {i np : Slot}
    (hrun : (x.1.1.ptable i).state = .running) (hp : x.1.1.path i = .allocated np) :
    StartsInImage x i np ↔ (x.2.registered i = [] →
      x.1.2.registered i = 0 ∨ x.1.2.registered i = x.1.2.afterFork np) := by
  have hstart := fork_starts (imaged_recorded hr) hrun hp
  have hin := ((inv_reach (imaged_recorded hr)).pending i np hp).inWelcome
  unfold StartsInImage
  rw [hstart]
  by_cases hzero : x.1.2.registered i = 0
  · rw [if_neg fun h => hin.mp h hzero]
    exact iff_of_true (.inl rfl) fun _ => .inl hzero
  · rw [if_pos (hin.mpr hzero)]
    constructor
    · rintro (hafter | hmem) hnil
      · exact .inr hafter
      · rw [hnil] at hmem
        exact absurd hmem List.not_mem_nil
    · intro h
      by_cases hnil : x.2.registered i = []
      · exact .inl ((h hnil).resolve_left hzero)
      · exact .inr (agree_reach hr i hnil)

/-- `welcomeDone` stays in the image exactly for a process that no `fork` made, or that has not
    called `exec`. -/
theorem returnsInImage_iff {x : (State × Record) × Images} (hr : imaged.Reach x) {i : Slot}
    (a : Nat) (hready : Ready x.1.1 i) :
    ReturnsInImage x i a ↔ (x.1.2.forked i = true → x.2.replaced i = false) := by
  have hset := (inv_reach (imaged_recorded hr)).caller hready
  cases hf : x.1.2.forked i with
  | false =>
    obtain ⟨hzero, -⟩ := hset.first hf
    refine iff_of_true (fun hret => ?_) fun h => by cases h
    rw [sysWelcomeDone, State.trapped, if_neg fun hne => hne hzero] at hret
    cases hret
  | true =>
    obtain ⟨hret, hne⟩ := hset.child hf
    have hdone : (sysWelcomeDone (x.1.1.trapped i a)).1 = 0 := by
      have hne' : (x.1.1.trapped i a).returnAddr ≠ 0 := hret.symm ▸ hne
      rw [sysWelcomeDone, if_pos hne']
    exact ⟨fun h _ => h hdone, fun h _ => h rfl⟩

/-- **Welcome addresses and images.**  In every state that a run leads to: a `fork` starts the
    child in the image of its parent, and a `welcomeDone` goes back in the image that the caller
    was created with, exactly under these conditions. -/
theorem welcome_images {x : (State × Record) × Images} (hr : imaged.Reach x) :
    (∀ i np, (x.1.1.ptable i).state = .running → x.1.1.path i = .allocated np →
      (StartsInImage x i np ↔ (x.2.registered i = [] →
        x.1.2.registered i = 0 ∨ x.1.2.registered i = x.1.2.afterFork np))) ∧
    ∀ i a, Ready x.1.1 i → x.1.1.path i = .user →
      (ReturnsInImage x i a ↔ (x.1.2.forked i = true → x.2.replaced i = false)) :=
  ⟨fun _ _ hrun hp => startsInImage_iff hr hrun hp, fun _ a hready _ =>
    returnsInImage_iff hr a hready⟩

/-! ## Two runs -/

theorem imaged_boot : imaged.Reach ((boot, ⟨fun _ => 0, fun _ => false, fun _ => false,
    fun _ => 0⟩), ⟨fun _ => [], fun _ => false⟩) := .start ⟨⟨boot_booted, rfl⟩, rfl⟩

theorem imaged_step {s s' : State} {g : Record} {m : Images} {e : Event}
    (h : imaged.Reach ((s, g), m)) (hs : Step s e s') :
    imaged.Reach ((s', g.after s e), m.after s e) := .step h ⟨⟨hs, rfl⟩, rfl⟩

/-- The first process registers 64, replaces its image and forks. -/
theorem fork_behind_exec : ∃ x, imaged.Reach x ∧ (x.1.1.ptable 0).state = .running ∧
    x.1.1.path 0 = .allocated 1 ∧ x.2.registered 0 = [] ∧ x.1.2.registered 0 = 64 ∧
    x.1.2.afterFork 1 = 18 := by
  have h1 := imaged_step imaged_boot
    (@Step.reschedule _ 0 .running (.inr (.inl rfl)) (.inr (.inr rfl)))
  have h2 := imaged_step h1 (@Step.welcomeFunction _ 0 8 64 ⟨rfl, rfl⟩ rfl)
  have h3 := imaged_step h2 (@Step.exec _ 0 12 0 8192 ⟨rfl, rfl⟩ rfl)
  have h4 := imaged_step h3 (@Step.forkAlloc _ 0 1 16 ⟨rfl, rfl⟩ rfl (by decide))
  exact ⟨_, h4, rfl, rfl, rfl, rfl, rfl⟩

/-- A child replaces its image and calls `welcomeDone`. -/
theorem done_behind_exec : ∃ x, imaged.Reach x ∧ Ready x.1.1 1 ∧ x.1.1.path 1 = .user ∧
    x.1.2.forked 1 = true ∧ x.2.replaced 1 = true := by
  have h1 := imaged_step imaged_boot
    (@Step.reschedule _ 0 .running (.inr (.inl rfl)) (.inr (.inr rfl)))
  have h2 := imaged_step h1 (@Step.forkAlloc _ 0 1 16 ⟨rfl, rfl⟩ rfl (by decide))
  have h3 := imaged_step h2 (@Step.forkCopy _ 0 1 rfl rfl)
  have h4 := imaged_step h3 (@Step.forkPublish _ 0 1 rfl rfl)
  have h5 := imaged_step h4 (@Step.reschedule _ 1 .running (.inr (.inl rfl)) (.inr (.inr rfl)))
  have h6 := imaged_step h5 (@Step.exec _ 1 12 0 8192 ⟨rfl, rfl⟩ rfl)
  exact ⟨_, h6, ⟨rfl, rfl⟩, rfl, rfl, rfl⟩

theorem welcome_images_fork : ∃ x, imaged.Reach x ∧ x.2.registered 0 = [] ∧
    (StartsInImage x 0 1 ↔ (x.2.registered 0 = [] →
      x.1.2.registered 0 = 0 ∨ x.1.2.registered 0 = x.1.2.afterFork 1)) := by
  obtain ⟨x, hr, hrun, hp, hnil, -, -⟩ := fork_behind_exec
  exact ⟨x, hr, hnil, (welcome_images hr).1 0 1 hrun hp⟩

/-- **Behind `exec`** a child starts at an address of the old image, and a child of the old image
    goes back into it. -/
theorem images_outlived :
    (¬ ∀ x, imaged.Reach x → ∀ i np, (x.1.1.ptable i).state = .running →
      x.1.1.path i = .allocated np → StartsInImage x i np) ∧
    ¬ ∀ x, imaged.Reach x → ∀ i a, Ready x.1.1 i → x.1.1.path i = .user →
      ReturnsInImage x i a := by
  constructor
  · intro h
    obtain ⟨x, hr, hrun, hp, hnil, hreg, hafter⟩ := fork_behind_exec
    rcases (startsInImage_iff hr hrun hp).mp (h x hr 0 1 hrun hp) hnil with hzero | heq
    · rw [hreg] at hzero
      cases hzero
    · rw [hreg, hafter] at heq
      cases heq
  · intro h
    obtain ⟨x, hr, hready, hpath, hf, hreplaced⟩ := done_behind_exec
    have hkept := (returnsInImage_iff hr 0 hready).mp (h x hr 1 0 hready hpath) hf
    rw [hreplaced] at hkept
    cases hkept

end OsCodes.Welcome
