/-
  The steps of a reader-writer lock.

  Which waits occur (`Placed`), when no wakeup is lost (`Wakeups`, with the reason `R` that keeps
  readers out as a parameter), and the invariant `Safe` of both implementations, with one lemma
  for each thing that a stretch can do: wait, let a reader or a writer in, let it go.

  The two implementations differ in when a reader has to wait and in what the unlocks signal, and
  in nothing else.  So the reason `R` is a parameter of `Wakeups` and of `Safe`, and each of the
  six lemmas about a stretch asks of the implementation what it has to provide: that a reader it
  lets in is kept out by nothing, or that a stretch which frees the lock has signalled one writer.
  `step_cases` is the inversion of a step; the modules of the two implementations start from it.
-/
import OsCodes.Sync.Rwlock

namespace OsCodes.Rwlock

open Monitor

variable {τ : Type}

/-! ## Waits -/

/-- The waits that occur: of a call for a lock, on its own condition variable. -/
structure Wait.Ok (p : Wait) : Prop where
  locks : p.call = .readerLock ∨ p.call = .writerLock
  may : May p.holds p.call

/-- Where a thread may be. -/
def Placed : Status Holds Cond Wait → Prop
  | .out _ => True
  | .blocked c p => c = p.call.cond ∧ p.Ok
  | .woken p => p.Ok

/-- Writers only wait on their condition variable. -/
theorem Placed.writer {p : Wait} (h : Placed (.blocked .writer p)) : p.call = .writerLock := by
  rcases h.2.locks with hr | hw
  · have hc := h.1
    rw [hr] at hc
    cases hc
  · exact hw

/-- A blocked thread that is woken stays in place. -/
theorem Placed.stirred {st st' : τ → Status Holds Cond Wait} (h : Stirred st st') {t : τ}
    (ht : Placed (st t)) : Placed (st' t) := by
  rcases h t with heq | ⟨c, p, hb, hw⟩
  · rw [heq]
    exact ht
  · rw [hb] at ht
    rw [hw]
    exact ht.2

/-- Waking threads takes nothing from them. -/
theorem held_stirred {s s' : St τ} (h : Stirred s.status s'.status) : held s' = held s := by
  funext t
  rcases h t with heq | ⟨c, p, hb, hw⟩
  · rw [held, heq, held]
  · rw [held, held, hb, hw]
    rfl

/-- Thread `t` is about to run call `c`, from its start or from the return of its wait. -/
def Ready (s : St τ) (t : τ) (c : Call) : Prop :=
  s.status t = .out (held s t) ∨ s.status t = .woken ⟨c, held s t⟩

theorem Ready.not_blocked {s : St τ} {t : τ} {c : Call} (h : Ready s t c) (d : Cond) (p : Wait) :
    s.status t ≠ .blocked d p := by
  intro hb
  rcases h with ho | hw
  · rw [ho] at hb
    cases hb
  · rw [hw] at hb
    cases hb

section Steps

variable [DecidableEq τ] {enter again : Body} {w : Wakes} {s s' : St τ} {e : Event τ Call}

/-- **A step** runs a call that its thread may make, or wakes a thread for no reason. -/
theorem step_cases (hp : ∀ t, Placed (s.status t)) (h : Step (code τ enter again) w s e s') :
    (∃ t c, May (held s t) c ∧
      (s.status t = .out (held s t) ∧ Runs w t (enter c (held s t) s.shared) s s' ∨
        s.status t = .woken ⟨c, held s t⟩ ∧ Runs w t (again c (held s t) s.shared) s s')) ∨
    s'.shared = s.shared ∧ Stirred s.status s'.status := by
  cases e with
  | enter t c =>
    obtain ⟨a, ha, hmay, hrun⟩ := h
    have hheld : held s t = a := by rw [held, ha]; rfl
    rw [← hheld] at ha hmay
    refine .inl ⟨t, c, hmay, .inl ⟨ha, ?_⟩⟩
    rw [hheld]
    exact hrun
  | resume t =>
    obtain ⟨p, hw, hrun⟩ := h
    have hheld : held s t = p.holds := by rw [held, hw]; rfl
    have hok : p.Ok := by
      have := hp t
      rw [hw] at this
      exact this
    refine .inl ⟨t, p.call, hheld ▸ hok.may, .inr ⟨?_, ?_⟩⟩
    · rw [hheld, hw]
    · rw [hheld]
      exact hrun
  | spurious t =>
    obtain ⟨c, p, hb, rfl⟩ := h
    exact .inr ⟨rfl, stirred_spurious hb⟩

/-- What a step of one thread does to what is held. -/
theorem held_runs {t : τ} {x : Stretch Rw Holds Cond Wait} (h : Runs w t x s s') :
    held s' = Function.update (held s) t (holds x.next.status) :=
  h.view (V := holds) fun _ _ => rfl

/-- The running thread is placed where its stretch ends, the others where they were. -/
theorem placed_runs {t : τ} {x : Stretch Rw Holds Cond Wait} (h : Runs w t x s s')
    (hp : ∀ u, Placed (s.status u)) (hx : Placed x.next.status) (u : τ) :
    Placed (s'.status u) := by
  by_cases hu : u = t
  · rw [hu, h.self]
    exact hx
  · rcases h.other hu with heq | ⟨c, p, hb, hw⟩
    · rw [heq]
      exact hp u
    · have hpu := hp u
      rw [hb] at hpu
      rw [hw]
      exact hpu.2

end Steps

/-! ## Wakeups -/

/-- Nobody holds the lock. -/
def Rw.Free (rw : Rw) : Prop := rw.numReaders = 0 ∧ rw.writerPresent = 0

/-- No wakeup is lost: readers are blocked only where `R` says that they are kept out, and when
    writers are blocked before a free lock, one of them is on its way. -/
structure Wakeups (R : Rw → Prop) (s : St τ) : Prop where
  readers : ∀ {t p}, s.status t = .blocked .reader p → R s.shared
  writers : ∀ {t p}, s.status t = .blocked .writer p → s.shared.Free →
    ∃ u p, s.status u = .woken p ∧ p.call = .writerLock

namespace Wakeups

variable {R : Rw → Prop} {s s' : St τ}

theorem stirred (h : Wakeups R s) (hs : s'.shared = s.shared)
    (hst : Stirred s.status s'.status) : Wakeups R s' := by
  refine ⟨fun {u p} hb => ?_, fun {u p} hb hfree => ?_⟩
  · rw [hs]
    exact h.readers (hst.blocked hb)
  · rw [hs] at hfree
    obtain ⟨v, q, hv, hq⟩ := h.writers (hst.blocked hb) hfree
    exact ⟨v, q, hst.woken hv, hq⟩

variable [DecidableEq τ] {w : Wakes} {t : τ} {x : Stretch Rw Holds Cond Wait}

/-- A thread goes to wait.  A writer does so before a lock that is not free; a reader may do so
    before any lock, and if it has been woken before, that was not the wakeup of a writer. -/
theorem wait (h : Wakeups R s) (hrun : Runs w t x s s') {c : Cond} {p : Wait}
    (hx : x.next = .wait c p) (hkeep : R s.shared → R x.shared)
    (hR : c = .reader → R x.shared) (hfree : x.shared.Free → s.shared.Free ∧ c = .reader ∧
      ∀ q, s.status t = .woken q → q.call ≠ .writerLock) : Wakeups R s' := by
  refine ⟨fun {u q} hb => ?_, fun {u q} hb hf => ?_⟩
  · rw [hrun.shared]
    by_cases hu : u = t
    · rw [hu, hrun.self, hx] at hb
      cases hb
      exact hR rfl
    · exact hkeep (h.readers (hrun.blocked hu hb))
  · rw [hrun.shared] at hf
    obtain ⟨hfs, hc, ht⟩ := hfree hf
    have hut : u ≠ t := by
      intro hut
      rw [hut, hrun.self, hx, hc] at hb
      cases hb
    obtain ⟨v, r, hv, hr⟩ := h.writers (hrun.blocked hut hb) hfs
    have hvt : v ≠ t := fun hvt => ht r (hvt ▸ hv) hr
    exact ⟨v, r, hrun.woken hvt hv, hr⟩

/-- A thread leaves: readers that it lets in have been woken, and one writer if the lock is free
    and a writer is waiting. -/
theorem leave (h : Wakeups R s) (hp : ∀ u, Placed (s.status u)) (hrun : Runs w t x s s')
    (ht : ∀ c p, s.status t ≠ .blocked c p) {hd : Holds} (hx : x.next = .leave hd)
    (hR : .broadcast .reader ∈ x.notify ∨ (R s.shared → R x.shared))
    (hW : x.shared.Free →
      .signal .writer ∈ x.notify ∨ ∀ u p, s.status u ≠ .blocked .writer p) : Wakeups R s' := by
  -- `t` itself is not blocked
  have hne : ∀ {u c p}, s'.status u = .blocked c p → u ≠ t := by
    intro u c p hb hu
    rw [hu, hrun.self, hx] at hb
    cases hb
  refine ⟨fun {u p} hb => ?_, fun {u p} hb hfree => ?_⟩
  · rw [hrun.shared]
    rcases hR with hbc | hkeep
    · exact absurd hb (hrun.broadcast hbc (hne hb))
    · exact hkeep (h.readers (hrun.blocked (hne hb) hb))
  · rw [hrun.shared] at hfree
    rcases hW hfree with hsig | hnone
    · obtain ⟨v, q, hv, hvb, hvw⟩ := hrun.signal hsig ht (hne hb) hb
      have hq := hp v
      rw [hvb] at hq
      exact ⟨v, q, hvw, Placed.writer hq⟩
    · exact absurd (hrun.blocked (hne hb) hb) (hnone u p)

end Wakeups

/-! ## The invariant of both implementations -/

section Safe

variable [DecidableEq τ] [Fintype τ]

/-- The counters are right, threads wait where they should, and no wakeup is lost. -/
structure Safe (R : Rw → Prop) (s : St τ) : Prop where
  impl : Implements s.shared (held s)
  placed : ∀ t, Placed (s.status t)
  wakeups : Wakeups R s

namespace Safe

variable {R : Rw → Prop} {w : Wakes} {s s' : St τ} {t : τ} {x : Stretch Rw Holds Cond Wait}

/-- Before the first call. -/
theorem initial (hr : s.shared.numReaders = 0) (hw : s.shared.writerPresent = 0)
    (hout : ∀ t, s.status t = .out .none) : Safe R s := by
  have hheld : held s = fun _ => .none := by
    funext t
    rw [held, hout t]
    rfl
  refine ⟨⟨.start fun t => by rw [hheld], ?_, ?_⟩, fun t => ?_, ⟨fun hb => ?_, fun hb => ?_⟩⟩
  · rw [hr, hheld, count_eq_zero.mpr fun _ => rfl]
    rfl
  · rw [hw, hheld, count_eq_zero.mpr fun _ => rfl]
    rfl
  · rw [hout t]
    trivial
  · rw [hout] at hb
    cases hb
  · rw [hout] at hb
    cases hb

/-- Threads are woken for no reason. -/
theorem stirred (h : Safe R s) (hs : s'.shared = s.shared) (hst : Stirred s.status s'.status) :
    Safe R s' := by
  refine ⟨?_, fun t => (h.placed t).stirred hst, h.wakeups.stirred hs hst⟩
  rw [hs, held_stirred hst]
  exact h.impl

/-- A thread has to wait. -/
theorem wait (h : Safe R s) (hrun : Runs w t x s s') {c : Call}
    (hc : c = .readerLock ∨ c = .writerLock) (hmay : May (held s t) c) (hgo : Ready s t c)
    (hx : x.next = .wait c.cond ⟨c, held s t⟩)
    (hr : x.shared.numReaders = s.shared.numReaders)
    (hw : x.shared.writerPresent = s.shared.writerPresent)
    (hkeep : R s.shared → R x.shared) (hR : c = .readerLock → R x.shared)
    (hfree : c = .writerLock → ¬ s.shared.Free) : Safe R s' := by
  have hplaced : Placed x.next.status := by
    rw [hx]
    exact ⟨rfl, hc, hmay⟩
  refine ⟨?_, placed_runs hrun h.placed hplaced,
    h.wakeups.wait hrun hx hkeep (fun hcr => ?_) fun hf => ?_⟩
  · rw [held_runs hrun, hrun.shared, hx]
    show Implements x.shared (Function.update (held s) t (held s t))
    rw [Function.update_eq_self]
    exact h.impl.congr hr hw
  · rcases hc with rfl | rfl
    · exact hR rfl
    · cases hcr
  · rw [Rw.Free, hr, hw] at hf
    rcases hc with rfl | rfl
    · refine ⟨hf, rfl, fun q hq hqc => ?_⟩
      rcases hgo with ho | hwk
      · rw [ho] at hq
        cases hq
      · rw [hwk] at hq
        cases hq
        cases hqc
    · exact absurd hf (hfree rfl)

/-- A thread leaves. -/
theorem leave (h : Safe R s) (hrun : Runs w t x s s') {c : Call} (hgo : Ready s t c)
    {hd : Holds} (hx : x.next = .leave hd)
    (himpl : Implements x.shared (Function.update (held s) t hd))
    (hR : .broadcast .reader ∈ x.notify ∨ (R s.shared → R x.shared))
    (hW : x.shared.Free →
      .signal .writer ∈ x.notify ∨ ∀ u p, s.status u ≠ .blocked .writer p) : Safe R s' := by
  have hplaced : Placed x.next.status := by
    rw [hx]
    trivial
  refine ⟨?_, placed_runs hrun h.placed hplaced,
    h.wakeups.leave h.placed hrun hgo.not_blocked hx hR hW⟩
  rw [held_runs hrun, hrun.shared, hx]
  exact himpl

/-- A reader is let in. -/
theorem readerLock (h : Safe R s) (hrun : Runs w t x s s') (hmay : May (held s t) .readerLock)
    (hgo : Ready s t .readerLock) (hx : x.next = .leave ((held s t).setReading true))
    (hw0 : s.shared.writerPresent = 0) (hr : x.shared.numReaders = s.shared.numReaders + 1)
    (hw : x.shared.writerPresent = s.shared.writerPresent)
    (hR : R s.shared → R x.shared) : Safe R s' := by
  refine h.leave hrun hgo hx (h.impl.readerLock hw0 hmay hr hw) (.inr hR) fun hf => ?_
  have hzero : s.shared.numReaders + 1 = 0 := hr ▸ hf.1
  have hreaders := h.impl.readers
  omega

/-- A reader leaves. -/
theorem readerUnlock (h : Safe R s) (hrun : Runs w t x s s')
    (hmay : May (held s t) .readerUnlock) (hgo : Ready s t .readerUnlock)
    (hx : x.next = .leave ((held s t).setReading false))
    (hr : x.shared.numReaders = s.shared.numReaders - 1)
    (hw : x.shared.writerPresent = s.shared.writerPresent) (hR : R s.shared → R x.shared)
    (hsig : s.shared.numReaders - 1 = 0 → .signal .writer ∈ x.notify) : Safe R s' :=
  h.leave hrun hgo hx (h.impl.readerUnlock hmay hr hw) (.inr hR)
    fun hf => .inl (hsig (hr ▸ hf.1))

/-- A writer is let in. -/
theorem writerLock (h : Safe R s) (hrun : Runs w t x s s') (hgo : Ready s t .writerLock)
    (hx : x.next = .leave ((held s t).setWriting true)) (hfree : s.shared.Free)
    (hr : x.shared.numReaders = s.shared.numReaders) (hw : x.shared.writerPresent = 1)
    (hR : R x.shared) : Safe R s' := by
  refine h.leave hrun hgo hx (h.impl.writerLock hfree.1 hfree.2 hr hw) (.inr fun _ => hR)
    fun hf => ?_
  have hzero : x.shared.writerPresent = 0 := hf.2
  omega

/-- A writer leaves. -/
theorem writerUnlock (h : Safe R s) (hrun : Runs w t x s s')
    (hmay : May (held s t) .writerUnlock) (hgo : Ready s t .writerUnlock)
    (hx : x.next = .leave ((held s t).setWriting false))
    (hr : x.shared.numReaders = s.shared.numReaders) (hw : x.shared.writerPresent = 0)
    (hR : .broadcast .reader ∈ x.notify ∨ R x.shared)
    (hW : .signal .writer ∈ x.notify ∨ ∀ u p, s.status u ≠ .blocked .writer p) : Safe R s' :=
  h.leave hrun hgo hx (h.impl.writerUnlock hmay hr hw) (hR.imp_right fun hk _ => hk) fun _ => hW

/-- Of the writers blocked before a free lock, another one has been woken. -/
theorem woken_writer (h : Safe R s) {p : Wait} (hb : s.status t = .blocked .writer p)
    (hr : s.shared.numReaders = 0) (hw : s.shared.writerPresent = 0) :
    ∃ u q, u ≠ t ∧ s.status u = .woken q ∧ q.call = .writerLock := by
  obtain ⟨u, q, hu, hq⟩ := h.wakeups.writers hb ⟨hr, hw⟩
  refine ⟨u, q, fun hut => ?_, hu, hq⟩
  rw [hut, hb] at hu
  cases hu

end Safe

end Safe

end OsCodes.Rwlock
