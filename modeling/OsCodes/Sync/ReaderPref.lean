/-
  The reader-writer lock of rwlock-reader-pref.cpp.

  A body is what runs from the start of a function or from the return of its wait: in all four
  functions the two are the same code, the test of the loop and what follows it.  `Inv` is what
  every reachable state satisfies: the counters are right (`Implements`) and no wakeup is lost
  (`Wakeups`, with a writer present as the only reason to block a reader).

  Since waits are in loops, a thread that has been woken runs the same code as one that calls, and
  the system is given the same bodies twice.  A reader waits for a writer that holds the lock and
  for nothing else, so readers may keep a writer waiting; what the lock promises is that the two
  exclude each other (`reader_pref_excludes`), that an unlock never waits, and that no wakeup is
  lost (`reader_pref_wakes`).  `contended_reach` is a run in which a reader is blocked by a
  writer.
-/
import OsCodes.Sync.RwlockSteps

namespace OsCodes.ReaderPref

open Monitor Rwlock

/-! ## The code -/

/-- `InitalizeReadWriteLock`. -/
def initalizeReadWriteLock (rw : Rw) : Rw := { rw with numReaders := 0, writerPresent := 0 }

/-- `ReaderLock`: readers come in together, and wait only where a writer is inside. -/
def readerLock (h : Holds) (rw : Rw) : Stretch Rw Holds Cond Wait :=
  if rw.writerPresent ≠ 0 then ⟨rw, [], .wait .reader ⟨.readerLock, h⟩⟩
  else ⟨{ rw with numReaders := rw.numReaders + 1 }, [], .leave (h.setReading true)⟩

/-- `ReaderUnlock`, with a wait of its own; the last reader wakes a writer. -/
def readerUnlock (h : Holds) (rw : Rw) : Stretch Rw Holds Cond Wait :=
  if rw.writerPresent ≠ 0 then ⟨rw, [], .wait .reader ⟨.readerUnlock, h⟩⟩
  else ⟨{ rw with numReaders := rw.numReaders - 1 },
    if rw.numReaders - 1 = 0 then [.signal .writer] else [], .leave (h.setReading false)⟩

/-- `WriterLock`: a writer waits until nobody is inside, and may be overtaken by readers. -/
def writerLock (h : Holds) (rw : Rw) : Stretch Rw Holds Cond Wait :=
  if rw.numReaders ≠ 0 ∨ rw.writerPresent ≠ 0 then ⟨rw, [], .wait .writer ⟨.writerLock, h⟩⟩
  else ⟨{ rw with writerPresent := 1 }, [], .leave (h.setWriting true)⟩

/-- `WriterUnlock`. -/
def writerUnlock (h : Holds) (rw : Rw) : Stretch Rw Holds Cond Wait :=
  ⟨{ rw with writerPresent := 0 }, [.signal .writer, .broadcast .reader],
    .leave (h.setWriting false)⟩

/-- The function that a call names. -/
def body : Body
  | .readerLock => readerLock
  | .readerUnlock => readerUnlock
  | .writerLock => writerLock
  | .writerUnlock => writerUnlock

/-- The threads of a process around a lock that has been initialised. -/
def rwlock (τ : Type) [DecidableEq τ] : Lts (St τ) (Event τ Call) :=
  system (code τ body body) .some fun s =>
    (∃ rw, s.shared = initalizeReadWriteLock rw) ∧ ∀ t, s.status t = .out .none

variable {τ : Type} [DecidableEq τ]

/-- A step runs a body, or wakes a thread for no reason. -/
theorem step_body {s s' : St τ} {e : Event τ Call} (hp : ∀ t, Placed (s.status t))
    (hst : (rwlock τ).step s e s') :
    (∃ t c, May (held s t) c ∧ Ready s t c ∧ Runs .some t (body c (held s t) s.shared) s s') ∨
    s'.shared = s.shared ∧ Stirred s.status s'.status := by
  rcases step_cases hp hst with ⟨t, c, hmay, ⟨ho, hrun⟩ | ⟨hw, hrun⟩⟩ | hspur
  · exact .inl ⟨t, c, hmay, .inl ho, hrun⟩
  · exact .inl ⟨t, c, hmay, .inr hw, hrun⟩
  · exact .inr hspur

variable [Fintype τ]

/-! ## The invariant -/

/-- The counters are right, and no wakeup is lost: a reader is kept out by a writer only. -/
def Inv (s : St τ) : Prop := Safe (fun rw => rw.writerPresent ≠ 0) s

namespace Inv

variable {w : Wakes} {s s' : St τ} {t : τ}

theorem readerLock (h : Inv s) (hmay : May (held s t) .readerLock) (hgo : Ready s t .readerLock)
    (hrun : Runs w t (readerLock (held s t) s.shared) s s') : Inv s' := by
  rw [ReaderPref.readerLock] at hrun
  split at hrun
  case isTrue hw =>
    exact Safe.wait h hrun (.inl rfl) hmay hgo rfl rfl rfl (fun hk => hk) (fun _ => hw)
      fun hc => by cases hc
  case isFalse hw =>
    exact Safe.readerLock h hrun hmay hgo rfl (Decidable.not_not.mp hw) rfl rfl fun hk => hk

/-- **`ReaderUnlock`** by a thread that reads: it does not wait, for no writer is present. -/
theorem readerUnlock_eq (h : Inv s) (hmay : May (held s t) .readerUnlock) :
    readerUnlock (held s t) s.shared =
      ⟨{ s.shared with numReaders := s.shared.numReaders - 1 },
        if s.shared.numReaders - 1 = 0 then [.signal .writer] else [],
        .leave ((held s t).setReading false)⟩ := by
  have hw0 := (h.impl.of_reading (t := t) hmay).2
  rw [ReaderPref.readerUnlock, if_neg (fun hw => hw hw0)]

theorem readerUnlock (h : Inv s) (hmay : May (held s t) .readerUnlock)
    (hgo : Ready s t .readerUnlock)
    (hrun : Runs w t (readerUnlock (held s t) s.shared) s s') : Inv s' := by
  rw [h.readerUnlock_eq hmay] at hrun
  refine Safe.readerUnlock h hrun hmay hgo rfl rfl rfl (fun hk => hk) fun hlast => ?_
  show Notify.signal Cond.writer ∈ if s.shared.numReaders - 1 = 0 then _ else _
  rw [if_pos hlast]
  exact List.mem_singleton.mpr rfl

theorem writerLock (h : Inv s) (hgo : Ready s t .writerLock)
    (hrun : Runs w t (writerLock (held s t) s.shared) s s') : Inv s' := by
  rw [ReaderPref.writerLock] at hrun
  split at hrun
  case isTrue hbusy =>
    refine Safe.wait h hrun (.inr rfl) trivial hgo rfl rfl rfl (fun hk => hk)
      (fun hc => by cases hc) fun _ hf => ?_
    rcases hbusy with hr | hw
    · exact hr hf.1
    · exact hw hf.2
  case isFalse hfree =>
    obtain ⟨hr0, hw0⟩ := not_or.mp hfree
    have hfree : s.shared.Free := ⟨Decidable.not_not.mp hr0, Decidable.not_not.mp hw0⟩
    have hone : (1 : Int) ≠ 0 := by decide
    exact Safe.writerLock h hrun hgo rfl hfree rfl rfl hone

theorem writerUnlock (h : Inv s) (hmay : May (held s t) .writerUnlock)
    (hgo : Ready s t .writerUnlock)
    (hrun : Runs w t (writerUnlock (held s t) s.shared) s s') : Inv s' :=
  Safe.writerUnlock h hrun hmay hgo rfl rfl rfl
    (.inl (List.mem_cons_of_mem _ (List.mem_singleton.mpr rfl))) (.inl List.mem_cons_self)

/-- **The step lemma**, by the call and the place in it from which the thread goes on. -/
theorem step (h : Inv s) {e : Event τ Call} (hst : (rwlock τ).step s e s') : Inv s' := by
  rcases step_body h.placed hst with ⟨t, c, hmay, hgo, hrun⟩ | ⟨hs, hstir⟩
  · cases c with
    | readerLock => exact h.readerLock hmay hgo hrun
    | readerUnlock => exact h.readerUnlock hmay hgo hrun
    | writerLock => exact h.writerLock hgo hrun
    | writerUnlock => exact h.writerUnlock hmay hgo hrun
  · exact Safe.stirred h hs hstir

end Inv

/-- **The run lemma**: the invariant holds whatever the threads call, and in which order. -/
theorem inv {s : St τ} (hr : (rwlock τ).Reach s) : Inv s := by
  refine hr.invariant (fun s h0 => ?_) fun s e s' h hst => h.step hst
  obtain ⟨⟨rw, hrw⟩, hout⟩ := h0
  exact Safe.initial (by rw [hrw]; rfl) (by rw [hrw]; rfl) hout

/-! ## Exclusion -/

/-- A call that ends in a wait has changed nothing. -/
theorem body_wait {c : Call} {h : Holds} {rw : Rw} {d : Cond} {p : Wait}
    (hx : (body c h rw).next = .wait d p) : (body c h rw).shared = rw := by
  cases c with
  | readerLock =>
    simp only [body, readerLock] at hx ⊢
    split at hx
    case isTrue hw => rw [if_pos hw]
    case isFalse => cases hx
  | readerUnlock =>
    simp only [body, readerUnlock] at hx ⊢
    split at hx
    case isTrue hw => rw [if_pos hw]
    case isFalse => cases hx
  | writerLock =>
    simp only [body, writerLock] at hx ⊢
    split at hx
    case isTrue hw => rw [if_pos hw]
    case isFalse => cases hx
  | writerUnlock => cases hx

/-- A step that blocks a reader finds a writer present. -/
theorem blocks_reader {s s' : St τ} (h : Inv s) {e : Event τ Call}
    (hst : (rwlock τ).step s e s') {t : τ} {p : Wait} (hb : s'.status t = .blocked .reader p) :
    s.shared.writerPresent = 1 := by
  suffices hne : s.shared.writerPresent ≠ 0 by
    have hle := h.impl.writers_le
    omega
  rcases step_body h.placed hst with ⟨u, c, -, -, hrun⟩ | ⟨-, hstir⟩
  · by_cases htu : t = u
    · rw [htu, hrun.self] at hb
      have hsame : s'.shared = s.shared := by
        rw [hrun.shared]
        exact body_wait (Next.eq_wait hb)
      rw [← hsame]
      exact (h.step hst).wakeups.readers (hrun.self.trans hb)
    · exact h.wakeups.readers (hrun.blocked htu hb)
  · exact h.wakeups.readers (hstir.blocked hb)

/-- A thread that calls `ReaderUnlock` returns from it in one stretch. -/
theorem readerUnlock_returns {s s' : St τ} (h : Inv s) {t : τ}
    (hst : (rwlock τ).step s (.enter t .readerUnlock) s') :
    s'.status t = .out ((held s t).setReading false) := by
  obtain ⟨a, ha, hmay, hrun⟩ := hst
  have hheld : held s t = a := by rw [held, ha]; rfl
  rw [← hheld] at hmay hrun
  have hbody : Runs .some t (ReaderPref.readerUnlock (held s t) s.shared) s s' := hrun
  rw [h.readerUnlock_eq hmay] at hbody
  exact hbody.self

/-- A run: thread `true` takes the write lock, then `false` calls `ReaderLock`. -/
theorem contended_reach : (rwlock Bool).Reach ⟨⟨0, 0, 1⟩,
    Function.update (Function.update (fun _ => .out .none) true (.out ⟨false, true⟩)) false
      (.blocked .reader ⟨.readerLock, .none⟩)⟩ := by
  have hstart : (rwlock Bool).Reach ⟨⟨0, 0, 0⟩, fun _ => .out .none⟩ :=
    .start ⟨⟨⟨0, 0, 0⟩, rfl⟩, fun _ => rfl⟩
  have hwrite : (rwlock Bool).Reach
      ⟨⟨0, 0, 1⟩, Function.update (fun _ => .out .none) true (.out ⟨false, true⟩)⟩ :=
    .step (e := .enter true .writerLock) hstart ⟨.none, rfl, trivial, _, rfl, rfl⟩
  exact .step (e := .enter false .readerLock) hwrite ⟨.none, rfl, rfl, _, rfl, rfl⟩

/-- **Readers and writers exclude each other**: the counters are right, a reader is blocked for a
    writer only, and giving the read lock back never waits. -/
theorem reader_pref_excludes {s : St τ} (hr : (rwlock τ).Reach s) :
    s.shared.numReaders = count Holds.reading (held s) ∧
    (s.shared.writerPresent = 1 ↔ ∃! t, (held s t).writing = true) ∧
    ((¬ ∃! t, (held s t).writing = true) → s.shared.writerPresent = 0) ∧
    (∀ t u, (held s t).writing = true → (held s u).reading = false) ∧
    (∀ t u, (held s t).writing = true → (held s u).writing = true → t = u) ∧
    (∀ e s' t p, (rwlock τ).step s e s' → s'.status t = .blocked .reader p →
      ∃ u, (held s u).writing = true) ∧
    (∀ t s', (rwlock τ).step s (.enter t .readerUnlock) s' →
      s'.status t = .out ((held s t).setReading false)) ∧
    ∀ t c p, s.status t = .blocked c p ∨ s.status t = .woken p → p.call ≠ .readerUnlock := by
  have h := inv hr
  have hap := spec_apart h.impl.reach
  refine ⟨h.impl.readers, h.impl.writerPresent_iff, fun hno => ?_, fun t u => hap.alone,
    fun t u => hap.one, fun e s' t p hst hb => ?_, fun t s' => readerUnlock_returns h,
    fun t c p ht hc => ?_⟩
  · have hone : s.shared.writerPresent ≠ 1 := fun hw => hno (h.impl.writerPresent_iff.mp hw)
    exact h.impl.writers_le.resolve_right hone
  · exact (h.impl.writerPresent_iff.mp (blocks_reader h hst hb)).exists
  · have hok : p.Ok := by
      have hp := h.placed t
      rcases ht with hb | hw
      · rw [hb] at hp
        exact hp.2
      · rw [hw] at hp
        exact hp
    rcases hok.locks with hl | hl
    · rw [hc] at hl
      cases hl
    · rw [hc] at hl
      cases hl

theorem reader_pref_excludes_contended : ∃ s : St Bool, (rwlock Bool).Reach s ∧
    s.status false = .blocked .reader ⟨.readerLock, .none⟩ ∧
    s.shared.numReaders = count Holds.reading (held s) :=
  ⟨_, contended_reach, rfl, (reader_pref_excludes contended_reach).1⟩

/-! ## Wakeups -/

/-- **No wakeup is lost**: readers are blocked only while a writer is present, and of the writers
    blocked before a free lock one has been woken. -/
theorem reader_pref_wakes {s : St τ} (hr : (rwlock τ).Reach s) :
    (∀ t p, s.status t = .blocked .reader p → s.shared.writerPresent = 1) ∧
    (∀ t p, s.status t = .blocked .writer p →
      s.shared.numReaders = 0 → s.shared.writerPresent = 0 →
      ∃ u q, u ≠ t ∧ s.status u = .woken q ∧ q.call = .writerLock) ∧
    (s.shared.numReaders = 0 → s.shared.writerPresent = 0 →
      (∃ t c p, s.status t = .blocked c p) → ∃ u q, s.status u = .woken q) := by
  have h := inv hr
  have hreader : ∀ t p, s.status t = .blocked .reader p → s.shared.writerPresent = 1 :=
    fun t p hb => h.impl.writers_le.resolve_left (h.wakeups.readers hb)
  refine ⟨hreader, fun t p hb => Safe.woken_writer h hb, fun hr0 hw0 hbl => ?_⟩
  obtain ⟨t, c, p, hb⟩ := hbl
  cases c with
  | reader =>
    have hone := hreader t p hb
    omega
  | writer =>
    obtain ⟨u, q, -, hu, -⟩ := Safe.woken_writer h hb hr0 hw0
    exact ⟨u, q, hu⟩

theorem reader_pref_wakes_contended : ∃ s : St Bool, (rwlock Bool).Reach s ∧
    s.status false = .blocked .reader ⟨.readerLock, .none⟩ ∧ s.shared.writerPresent = 1 :=
  ⟨_, contended_reach, rfl, (reader_pref_wakes contended_reach).1 false _ rfl⟩

end OsCodes.ReaderPref
