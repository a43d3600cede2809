/-
  The reader-writer lock of rwlock-writer-pref.cpp.

  `numWritersWaiting` counts the threads in the wait of `WriterLock`, blocked or woken: `Inv`
  adds this to the invariant of RwlockSteps.lean, where readers are kept out by a writer or by
  that count.  That no reader is let in while a writer waits is a fact about each step
  (`no_reader_passes`), and from it one about runs.

  1. `KeptOut` is the reason `R`: a writer is present, or `numWritersWaiting` is not zero;
  2. `Inv` adds that `numWritersWaiting` is the number of threads in `WriterLock`'s wait.  A
     writer that is woken and finds the lock taken stays counted, since it is still in the loop
     (`writerLockLoop`);
  3. `reading_body` and `no_reader_passes` are the priority of one step, `no_reader_passes_run`
     that of a run up to the step in which the writer gets the lock;
  4. `writer_pref_wakes` has the same promise about wakeups as in the other implementation, with
     the larger reason.
-/
import OsCodes.Sync.RwlockSteps

namespace OsCodes.WriterPref

open Monitor Rwlock

/-! ## The code -/

/-- `InitalizeReadWriteLock`. -/
def initalizeReadWriteLock (_ : Rw) : Rw :=
  { numReaders := 0, numWritersWaiting := 0, writerPresent := 0 }

/-- `ReaderLock`: a reader waits while a writer is inside or waits. -/
def readerLock (h : Holds) (rw : Rw) : Stretch Rw Holds Cond Wait :=
  if rw.writerPresent ≠ 0 ∨ rw.numWritersWaiting ≠ 0 then
    ⟨rw, [], .wait .reader ⟨.readerLock, h⟩⟩
  else ⟨{ rw with numReaders := rw.numReaders + 1 }, [], .leave (h.setReading true)⟩

/-- `ReaderUnlock`. -/
def readerUnlock (h : Holds) (rw : Rw) : Stretch Rw Holds Cond Wait :=
  ⟨{ rw with numReaders := rw.numReaders - 1 },
    if rw.numReaders - 1 = 0 then [.signal .writer] else [], .leave (h.setReading false)⟩

/-- `WriterLock` from the test of its loop. -/
def writerLockLoop (h : Holds) (rw : Rw) : Stretch Rw Holds Cond Wait :=
  if rw.numReaders ≠ 0 ∨ rw.writerPresent ≠ 0 then ⟨rw, [], .wait .writer ⟨.writerLock, h⟩⟩
  else ⟨{ rw with numWritersWaiting := rw.numWritersWaiting - 1, writerPresent := 1 }, [],
    .leave (h.setWriting true)⟩

/-- `WriterLock`: a writer counts itself as waiting until it is let in. -/
def writerLock (h : Holds) (rw : Rw) : Stretch Rw Holds Cond Wait :=
  writerLockLoop h { rw with numWritersWaiting := rw.numWritersWaiting + 1 }

/-- `WriterUnlock`. -/
def writerUnlock (h : Holds) (rw : Rw) : Stretch Rw Holds Cond Wait :=
  ⟨{ rw with writerPresent := 0 },
    if rw.numWritersWaiting = 0 then [.broadcast .reader] else [.signal .writer],
    .leave (h.setWriting false)⟩

/-- The function that a call names. -/
def body : Body
  | .readerLock => readerLock
  | .readerUnlock => readerUnlock
  | .writerLock => writerLock
  | .writerUnlock => writerUnlock

/-- From the return of a wait. -/
def again : Body
  | .writerLock => writerLockLoop
  -- the reader's loop starts its function; the unlocks do not wait
  | c => body c

/-- The threads of a process around a lock that has been initialised. -/
def rwlock (τ : Type) [DecidableEq τ] : Lts (St τ) (Event τ Call) :=
  system (code τ body again) .some fun s =>
    (∃ rw, s.shared = initalizeReadWriteLock rw) ∧ ∀ t, s.status t = .out .none

/-- The thread waits in `WriterLock`. -/
def waiting : Status Holds Cond Wait → Bool
  | .out _ => false
  | .blocked _ p => p.call = .writerLock
  | .woken p => p.call = .writerLock

theorem waiting_woken (c : Cond) (p : Wait) : waiting (.woken p) = waiting (.blocked c p) := rfl

variable {τ : Type} [DecidableEq τ] [Fintype τ]

/-! ## The invariant -/

/-- Readers are kept out by a writer or by waiting writers. -/
def KeptOut (rw : Rw) : Prop := rw.writerPresent ≠ 0 ∨ rw.numWritersWaiting ≠ 0

/-- The invariant of both locks with the reason of this one, and the count of the
    waiting writers. -/
structure Inv (s : St τ) : Prop where
  safe : Safe KeptOut s
  writers : s.shared.numWritersWaiting = count waiting s.status

namespace Inv

variable {w : Wakes} {s s' : St τ} {t : τ}

/-- A stretch that neither starts nor ends the wait of a writer. -/
theorem count_keep (h : Inv s) {x : Stretch Rw Holds Cond Wait} (hrun : Runs w t x s s')
    (hx : waiting x.next.status = waiting (s.status t))
    (hn : x.shared.numWritersWaiting = s.shared.numWritersWaiting) :
    s'.shared.numWritersWaiting = count waiting s'.status := by
  have hmove := hrun.count waiting_woken
  rw [hx] at hmove
  have hwriters := h.writers
  rw [hrun.shared, hn]
  omega

theorem writers_nonneg (h : Inv s) : 0 ≤ s.shared.numWritersWaiting := by
  have hwriters := h.writers
  omega

theorem readerLock (h : Inv s) (hmay : May (held s t) .readerLock)
    (hgo : Ready s t .readerLock) (hwt : waiting (s.status t) = false)
    (hrun : Runs w t (readerLock (held s t) s.shared) s s') : Inv s' := by
  rw [WriterPref.readerLock] at hrun
  split at hrun
  case isTrue hk =>
    refine ⟨h.safe.wait hrun (.inl rfl) hmay hgo rfl rfl rfl (fun hk => hk) (fun _ => hk)
      (fun hc => ?_), h.count_keep hrun hwt.symm rfl⟩
    cases hc
  case isFalse hk =>
    obtain ⟨hw0, -⟩ := not_or.mp hk
    exact ⟨h.safe.readerLock hrun hmay hgo rfl (Decidable.not_not.mp hw0) rfl rfl fun hk => hk,
      h.count_keep hrun hwt.symm rfl⟩

theorem readerUnlock (h : Inv s) (hmay : May (held s t) .readerUnlock)
    (hgo : Ready s t .readerUnlock) (hwt : waiting (s.status t) = false)
    (hrun : Runs w t (readerUnlock (held s t) s.shared) s s') : Inv s' := by
  refine ⟨h.safe.readerUnlock hrun hmay hgo rfl rfl rfl (fun hk => hk) fun hlast => ?_,
    h.count_keep hrun hwt.symm rfl⟩
  show Notify.signal Cond.writer ∈ if s.shared.numReaders - 1 = 0 then _ else _
  rw [if_pos hlast]
  exact List.mem_singleton.mpr rfl

/-- The loop of `WriterLock`, where `t` is counted among the waiting writers. -/
theorem writerLockLoop (h : Inv s) (hgo : Ready s t .writerLock) {rw : Rw}
    (hr : rw.numReaders = s.shared.numReaders) (hw : rw.writerPresent = s.shared.writerPresent)
    (hn : rw.numWritersWaiting = count waiting s.status + if waiting (s.status t) then 0 else 1)
    (hrun : Runs w t (writerLockLoop (held s t) rw) s s') : Inv s' := by
  have hwriters := h.writers
  rw [WriterPref.writerLockLoop] at hrun
  split at hrun
  case isTrue hbusy =>
    have hmove : count waiting s'.status + (if waiting (s.status t) then 1 else 0) =
        count waiting s.status + 1 := hrun.count waiting_woken
    have hkeep : KeptOut s.shared → KeptOut rw := by
      intro hk
      rcases hk with hp | hq
      · exact .inl (hw ▸ hp)
      · exact .inr (by split at hn <;> omega)
    refine ⟨h.safe.wait hrun (.inr rfl) trivial hgo rfl hr hw hkeep (fun hc => by cases hc)
      fun _ hf => ?_, ?_⟩
    · rw [hr, hw] at hbusy
      rcases hbusy with hnr | hnw
      · exact hnr hf.1
      · exact hnw hf.2
    · rw [hrun.shared]
      show rw.numWritersWaiting = _
      rw [hn]
      by_cases hwt : waiting (s.status t) = true
      · rw [if_pos hwt] at hmove ⊢
        omega
      · rw [if_neg hwt] at hmove ⊢
        omega
  case isFalse hfree =>
    have hmove : count waiting s'.status + (if waiting (s.status t) then 1 else 0) =
        count waiting s.status + 0 := hrun.count waiting_woken
    have hone : (1 : Int) ≠ 0 := by decide
    rw [hr, hw] at hfree
    obtain ⟨hr0, hw0⟩ := not_or.mp hfree
    have hf : s.shared.Free := ⟨Decidable.not_not.mp hr0, Decidable.not_not.mp hw0⟩
    refine ⟨h.safe.writerLock hrun hgo rfl hf hr rfl (.inl hone), ?_⟩
    rw [hrun.shared]
    show rw.numWritersWaiting - 1 = _
    rw [hn]
    by_cases hwt : waiting (s.status t) = true
    · rw [if_pos hwt] at hmove ⊢
      omega
    · rw [if_neg hwt] at hmove ⊢
      omega

theorem writerUnlock (h : Inv s) (hmay : May (held s t) .writerUnlock)
    (hgo : Ready s t .writerUnlock) (hwt : waiting (s.status t) = false)
    (hrun : Runs w t (writerUnlock (held s t) s.shared) s s') : Inv s' := by
  have hwriters := h.writers
  by_cases hn : s.shared.numWritersWaiting = 0
  · rw [WriterPref.writerUnlock, if_pos hn] at hrun
    -- nobody waits in `WriterLock`
    have hnone : ∀ u p, s.status u ≠ .blocked .writer p := by
      intro u p hb
      have hzero : count waiting s.status = 0 := by omega
      have hu := count_eq_zero.mp hzero u
      have hpl := h.safe.placed u
      rw [hb] at hu hpl
      exact absurd (Placed.writer hpl) (of_decide_eq_false hu)
    exact ⟨h.safe.writerUnlock hrun hmay hgo rfl rfl rfl (.inl (List.mem_singleton.mpr rfl))
      (.inr hnone), h.count_keep hrun hwt.symm rfl⟩
  · rw [WriterPref.writerUnlock, if_neg hn] at hrun
    exact ⟨h.safe.writerUnlock hrun hmay hgo rfl rfl rfl (.inr (.inr hn))
      (.inl (List.mem_singleton.mpr rfl)), h.count_keep hrun hwt.symm rfl⟩

/-- A call from its start. -/
theorem enter (h : Inv s) {c : Call} (hmay : May (held s t) c) (ho : s.status t = .out (held s t))
    (hrun : Runs w t (body c (held s t) s.shared) s s') : Inv s' := by
  have hwt : waiting (s.status t) = false := by
    rw [ho]
    rfl
  cases c with
  | readerLock => exact h.readerLock hmay (.inl ho) hwt hrun
  | readerUnlock => exact h.readerUnlock hmay (.inl ho) hwt hrun
  | writerLock =>
    have hloop : Runs w t (WriterPref.writerLockLoop (held s t)
        { s.shared with numWritersWaiting := s.shared.numWritersWaiting + 1 }) s s' := hrun
    refine h.writerLockLoop (.inl ho) ?_ ?_ ?_ hloop
    · rfl
    · rfl
    · rw [hwt, ← h.writers]
      rfl
  | writerUnlock => exact h.writerUnlock hmay (.inl ho) hwt hrun

/-- A call from the return of its wait. -/
theorem again (h : Inv s) {c : Call} (hmay : May (held s t) c)
    (hw : s.status t = .woken ⟨c, held s t⟩)
    (hrun : Runs w t (again c (held s t) s.shared) s s') : Inv s' := by
  cases c with
  | readerLock => exact h.readerLock hmay (.inr hw) (by rw [hw]; rfl) hrun
  | readerUnlock => exact h.readerUnlock hmay (.inr hw) (by rw [hw]; rfl) hrun
  | writerLock =>
    refine h.writerLockLoop (.inr hw) rfl rfl ?_ hrun
    have hwt : waiting (s.status t) = true := by
      rw [hw]
      rfl
    rw [if_pos hwt, h.writers]
    rfl
  | writerUnlock => exact h.writerUnlock hmay (.inr hw) (by rw [hw]; rfl) hrun

/-- **The step lemma**, by the call and the place in it from which the thread goes on. -/
theorem step (h : Inv s) {e : Event τ Call} (hst : (rwlock τ).step s e s') : Inv s' := by
  rcases step_cases h.safe.placed hst with ⟨t, c, hmay, ⟨ho, hrun⟩ | ⟨hw, hrun⟩⟩ | ⟨hs, hstir⟩
  · exact h.enter hmay ho hrun
  · exact h.again hmay hw hrun
  · refine ⟨h.safe.stirred hs hstir, ?_⟩
    rw [hs, hstir.count waiting_woken]
    exact h.writers

end Inv

/-- **The run lemma**: the invariant holds whatever the threads call, and in which order. -/
theorem inv {s : St τ} (hr : (rwlock τ).Reach s) : Inv s := by
  refine hr.invariant (fun s h0 => ?_) fun s e s' h hst => h.step hst
  obtain ⟨⟨rw, hrw⟩, hout⟩ := h0
  refine ⟨Safe.initial (by rw [hrw]; rfl) (by rw [hrw]; rfl) hout, ?_⟩
  rw [hrw, count_eq_zero.mpr fun t => by rw [hout t]; rfl]
  rfl

/-! ## Priority -/

/-- A step in which `t` comes to hold what `b` says. -/
def Acquires (b : Holds → Bool) (t : τ) (s s' : St τ) : Prop :=
  b (held s t) = false ∧ b (held s' t) = true

/-- While readers are kept out, no call lets one in. -/
theorem reading_body {c : Call} {h : Holds} {rw : Rw} (hk : KeptOut rw)
    (hx : (holds (body c h rw).next.status).reading = true) : h.reading = true := by
  cases c with
  | readerLock =>
    have hk : rw.writerPresent ≠ 0 ∨ rw.numWritersWaiting ≠ 0 := hk
    simp only [body, readerLock, if_pos hk] at hx
    exact hx
  | readerUnlock => cases hx
  | writerLock =>
    simp only [body, writerLock, writerLockLoop] at hx
    split at hx
    case isTrue => exact hx
    case isFalse => exact hx
  | writerUnlock => exact hx

theorem reading_again {c : Call} {h : Holds} {rw : Rw} (hk : KeptOut rw)
    (hx : (holds (again c h rw).next.status).reading = true) : h.reading = true := by
  cases c with
  | writerLock =>
    simp only [again, writerLockLoop] at hx
    split at hx
    case isTrue => exact hx
    case isFalse => exact hx
  | readerLock => exact reading_body (c := .readerLock) hk hx
  | readerUnlock => exact reading_body (c := .readerUnlock) hk hx
  | writerUnlock => exact reading_body (c := .writerUnlock) hk hx

/-- **Priority, one step**: a step from a state where a writer waits lets no reader in. -/
theorem no_reader_passes {s s' : St τ} (h : Inv s) {e : Event τ Call}
    (hst : (rwlock τ).step s e s') {t : τ} (ht : waiting (s.status t) = true) (u : τ) :
    ¬ Acquires Holds.reading u s s' := by
  rintro ⟨hno, hyes⟩
  have hk : KeptOut s.shared := by
    have hpos := count_pos (P := waiting) (f := s.status) ht
    have hwriters := h.writers
    exact .inr (by omega)
  -- only the thread that runs comes to hold something
  have honly : ∀ {v x}, Runs .some v x s s' →
      ((holds x.next.status).reading = true → (held s v).reading = true) → False := by
    intro v x hrun hkeep
    rw [held_runs hrun] at hyes
    by_cases huv : u = v
    · rw [huv, Function.update_self] at hyes
      rw [huv, hkeep hyes] at hno
      cases hno
    · rw [Function.update_of_ne huv, hno] at hyes
      cases hyes
  rcases step_cases h.safe.placed hst with ⟨v, c, -, ⟨-, hrun⟩ | ⟨-, hrun⟩⟩ | ⟨-, hstir⟩
  · exact honly hrun (reading_body hk)
  · exact honly hrun (reading_again hk)
  · rw [held_stirred hstir, hno] at hyes
    cases hyes

/-- A writer waits until it acquires the lock. -/
theorem waits_on {s s' : St τ} (h : Inv s) {e : Event τ Call} (hst : (rwlock τ).step s e s')
    {t : τ} (ht : waiting (s.status t) = true) (hno : ¬ Acquires Holds.writing t s s') :
    waiting (s'.status t) = true := by
  have hother : ∀ {v x}, Runs .some v x s s' → t ≠ v → waiting (s'.status t) = true := by
    intro v x hrun htv
    have hview := congrFun (hrun.view waiting_woken) t
    rw [Function.update_of_ne htv] at hview
    rw [hview, ht]
  rcases step_cases h.safe.placed hst with ⟨v, c, -, ⟨ho, hrun⟩ | ⟨hw, hrun⟩⟩ | ⟨-, hstir⟩
  · refine hother hrun fun htv => ?_
    rw [htv, ho] at ht
    cases ht
  · by_cases htv : t = v
    · rw [← htv] at hw hrun
      rw [hw] at ht
      have hc : c = .writerLock := of_decide_eq_true ht
      rw [hc] at hrun
      have hloop : Runs .some t (writerLockLoop (held s t) s.shared) s s' := hrun
      rw [writerLockLoop] at hloop
      split at hloop
      case isTrue =>
        rw [hloop.self]
        rfl
      case isFalse hfree =>
        obtain ⟨-, hw0⟩ := not_or.mp hfree
        refine absurd ⟨h.safe.impl.free_of_writers (Decidable.not_not.mp hw0) t, ?_⟩ hno
        rw [held_runs hloop, Function.update_self]
        rfl
    · exact hother hrun htv
  · rcases hstir t with heq | ⟨d, p, hb, hwk⟩
    · rw [heq, ht]
    · rw [hb] at ht
      rw [hwk]
      exact ht

/-- **Priority, over a run**: from a state where a writer waits, no reader acquires the lock in a
    run in which that writer has not acquired it. -/
theorem no_reader_passes_run {s s' : St τ} {trs : List (St τ × Event τ Call × St τ)}
    (hrun : (rwlock τ).Run s trs s') (hr : (rwlock τ).Reach s) {t : τ}
    (ht : waiting (s.status t) = true)
    (hno : ∀ tr ∈ trs, ¬ Acquires Holds.writing t tr.1 tr.2.2) :
    ∀ tr ∈ trs, ∀ u, ¬ Acquires Holds.reading u tr.1 tr.2.2 := by
  induction hrun with
  | nil s => exact fun tr htr => absurd htr List.not_mem_nil
  | @cons s s₁ s' e trs hst _ ih =>
    have hnext := waits_on (inv hr) hst ht (hno _ List.mem_cons_self)
    intro tr htr
    rcases List.mem_cons.mp htr with rfl | htr
    · exact no_reader_passes (inv hr) hst ht
    · exact ih (.step hr hst) hnext (fun tr htr => hno tr (List.mem_cons_of_mem _ htr)) tr htr

/-- A run: thread 0 reads, 1 waits in `WriterLock`, and 2 is then blocked in `ReaderLock`. -/
theorem contended_reach : (rwlock (Fin 3)).Reach ⟨⟨1, 1, 0⟩,
    Function.update (Function.update (Function.update (fun _ => .out .none) 0
      (.out ⟨true, false⟩)) 1 (.blocked .writer ⟨.writerLock, .none⟩)) 2
      (.blocked .reader ⟨.readerLock, .none⟩)⟩ := by
  have hstart : (rwlock (Fin 3)).Reach ⟨⟨0, 0, 0⟩, fun _ => .out .none⟩ :=
    .start ⟨⟨⟨0, 0, 0⟩, rfl⟩, fun _ => rfl⟩
  have hread : (rwlock (Fin 3)).Reach
      ⟨⟨0, 1, 0⟩, Function.update (fun _ => .out .none) 0 (.out ⟨true, false⟩)⟩ :=
    .step (e := .enter 0 .readerLock) hstart ⟨.none, rfl, rfl, _, rfl, rfl⟩
  have hwait : (rwlock (Fin 3)).Reach ⟨⟨1, 1, 0⟩, Function.update (Function.update
      (fun _ => .out .none) 0 (.out ⟨true, false⟩)) 1 (.blocked .writer ⟨.writerLock, .none⟩)⟩ :=
    .step (e := .enter 1 .writerLock) hread ⟨.none, rfl, trivial, _, rfl, rfl⟩
  exact .step (e := .enter 2 .readerLock) hwait ⟨.none, rfl, rfl, _, rfl, rfl⟩

/-- **Writers come first**: the counters are right, readers and writers exclude each other, and
    while a writer waits no reader is let in. -/
theorem writer_pref_excludes {s : St τ} (hr : (rwlock τ).Reach s) :
    s.shared.numReaders = count Holds.reading (held s) ∧
    (s.shared.writerPresent = 1 ↔ ∃! t, (held s t).writing = true) ∧
    ((¬ ∃! t, (held s t).writing = true) → s.shared.writerPresent = 0) ∧
    (∀ t u, (held s t).writing = true → (held s u).reading = false) ∧
    (∀ t u, (held s t).writing = true → (held s u).writing = true → t = u) ∧
    s.shared.numWritersWaiting = count waiting s.status ∧
    ∀ trs s', (rwlock τ).Run s trs s' → ∀ t, waiting (s.status t) = true →
      (∀ tr ∈ trs, ¬ Acquires Holds.writing t tr.1 tr.2.2) →
      ∀ tr ∈ trs, ∀ u, ¬ Acquires Holds.reading u tr.1 tr.2.2 := by
  have h := inv hr
  have hap := spec_apart h.safe.impl.reach
  refine ⟨h.safe.impl.readers, h.safe.impl.writerPresent_iff, fun hno => ?_,
    fun t u => hap.alone, fun t u => hap.one, h.writers,
    fun trs s' hrun t ht hno => no_reader_passes_run hrun hr ht hno⟩
  have hone : s.shared.writerPresent ≠ 1 :=
    fun hw => hno (h.safe.impl.writerPresent_iff.mp hw)
  exact h.safe.impl.writers_le.resolve_right hone

theorem writer_pref_excludes_contended : ∃ s : St (Fin 3), (rwlock (Fin 3)).Reach s ∧
    waiting (s.status 1) = true ∧ s.shared.numWritersWaiting = count waiting s.status :=
  ⟨_, contended_reach, rfl, (writer_pref_excludes contended_reach).2.2.2.2.2.1⟩

/-! ## Wakeups -/

/-- A woken writer takes a free lock when it runs. -/
theorem writerLockLoop_free {h : Holds} {rw : Rw} (hf : rw.Free) :
    (writerLockLoop h rw).next = .leave (h.setWriting true) := by
  rw [writerLockLoop, if_neg]
  rintro (hr | hw)
  · exact hr hf.1
  · exact hw hf.2

/-- **No wakeup is lost**: readers are blocked only while a writer is present or waits, and of the
    writers blocked before a free lock one has been woken; so a free lock with a thread blocked
    has a thread in `WriterLock` that takes it when it runs. -/
theorem writer_pref_wakes {s : St τ} (hr : (rwlock τ).Reach s) :
    (∀ t p, s.status t = .blocked .reader p →
      s.shared.writerPresent = 1 ∨ 0 < s.shared.numWritersWaiting) ∧
    (∀ t p, s.status t = .blocked .writer p →
      s.shared.numReaders = 0 → s.shared.writerPresent = 0 →
      ∃ u q, u ≠ t ∧ s.status u = .woken q ∧ q.call = .writerLock) ∧
    (s.shared.numReaders = 0 → s.shared.writerPresent = 0 →
      (∃ t c p, s.status t = .blocked c p) → ∃ u q, s.status u = .woken q ∧
        q.call = .writerLock ∧
        (again q.call q.holds s.shared).next = .leave (q.holds.setWriting true)) := by
  have h := inv hr
  have hreader : ∀ t p, s.status t = .blocked .reader p →
      s.shared.writerPresent = 1 ∨ 0 < s.shared.numWritersWaiting := by
    intro t p hb
    have hle := h.safe.impl.writers_le
    have hpos := h.writers_nonneg
    rcases h.safe.wakeups.readers hb with hw | hn
    · exact .inl (hle.resolve_left hw)
    · exact .inr (by omega)
  refine ⟨hreader, fun t p hb => h.safe.woken_writer hb, fun hr0 hw0 hbl => ?_⟩
  have hwoken : ∃ u q, s.status u = .woken q ∧ q.call = .writerLock := by
    obtain ⟨t, c, p, hb⟩ := hbl
    cases c with
    | writer =>
      obtain ⟨u, q, -, hu, hq⟩ := h.safe.woken_writer hb hr0 hw0
      exact ⟨u, q, hu, hq⟩
    | reader =>
      -- no writer is present, so one waits: woken already, or blocked beside one that is
      have hn : 0 < s.shared.numWritersWaiting := by
        have hor := hreader t p hb
        omega
      have hwriters := h.writers
      obtain ⟨u, hu⟩ := exists_of_count_pos (P := waiting) (f := s.status) (by omega)
      cases hus : s.status u with
      | out a =>
        rw [hus] at hu
        cases hu
      | woken q =>
        rw [hus] at hu
        exact ⟨u, q, hus, of_decide_eq_true hu⟩
      | blocked d q =>
        rw [hus] at hu
        have hq : q.call = .writerLock := of_decide_eq_true hu
        have hpl := h.safe.placed u
        rw [hus] at hpl
        have hd : d = .writer := by
          rw [hpl.1, hq]
          rfl
        rw [hd] at hus
        obtain ⟨v, r, -, hv, hr⟩ := h.safe.woken_writer hus hr0 hw0
        exact ⟨v, r, hv, hr⟩
  obtain ⟨u, q, hu, hq⟩ := hwoken
  refine ⟨u, q, hu, hq, ?_⟩
  rw [hq]
  exact writerLockLoop_free ⟨hr0, hw0⟩

theorem writer_pref_wakes_contended : ∃ s : St (Fin 3), (rwlock (Fin 3)).Reach s ∧
    s.status 2 = .blocked .reader ⟨.readerLock, .none⟩ ∧
    (s.shared.writerPresent = 1 ∨ 0 < s.shared.numWritersWaiting) :=
  ⟨_, contended_reach, rfl, (writer_pref_wakes contended_reach).1 2 _ rfl⟩

end OsCodes.WriterPref
