/-
  The reader-writer lock: what both of its implementations share.

  `Rw` is the structure of rwlock.h, `Call` its four functions and `Holds` what a thread holds.
  What the lock is for is `spec`: a system whose states say only who holds it, where a reader is
  let in when nobody writes and a writer when nobody holds anything.  `Implements` ties the
  counters of `Rw` to a state of `spec`; each implementation keeps it, step by step, so that what
  is proved of `spec` (`Apart`) holds of both.

  The promise is stated once, about `spec`, and does not depend on how wakeups are sent or on whom
  the lock prefers.  An implementation is a `code`: for each of the four functions a body from its
  start and a body from the return of its wait, which run under the mutex and say what they
  broadcast.  `May` is what the callers owe: they unlock what they have locked, and no thread
  takes the read lock twice at a time, which the counter could not tell from two readers.
-/
import OsCodes.Lib.Monitor

namespace OsCodes.Rwlock

open Monitor

/-! ## The lock and its callers -/

/-- `struct read_write_lock`. -/
structure Rw where
  numWritersWaiting : Int
  numReaders : Int
  writerPresent : Int

/-- The condition variables of `struct read_write_lock`, one for readers and one for writers. -/
inductive Cond
  | writer
  | reader
  deriving DecidableEq

/-- The four functions of rwlock.h that threads call. -/
inductive Call
  | readerLock
  | readerUnlock
  | writerLock
  | writerUnlock
  deriving DecidableEq

/-- What a thread holds: the lock for reading, or for writing. -/
structure Holds where
  reading : Bool
  writing : Bool
  deriving DecidableEq

/-- Neither lock. -/
def Holds.none : Holds := ⟨false, false⟩

def Holds.setReading (h : Holds) (b : Bool) : Holds := ⟨b, h.writing⟩

def Holds.setWriting (h : Holds) (b : Bool) : Holds := ⟨h.reading, b⟩

/-- A wait: the call it belongs to, and what the calling thread holds meanwhile. -/
structure Wait where
  call : Call
  holds : Holds

/-- The condition variable that a call waits on. -/
def Call.cond : Call → Cond
  | .readerLock | .readerUnlock => .reader
  | .writerLock | .writerUnlock => .writer

/-- A thread unlocks only what it locked, and takes the read lock once at a time. -/
def May (h : Holds) : Call → Prop
  | .readerLock => h.reading = false
  | .readerUnlock => h.reading = true
  | .writerLock => True
  | .writerUnlock => h.writing = true

/-- A state of the lock and its threads. -/
abbrev St (τ : Type) := State Rw τ Holds Cond Wait

/-- What a thread holds, wherever it is. -/
def holds : Status Holds Cond Wait → Holds
  | .out h => h
  | .blocked _ p => p.holds
  | .woken p => p.holds

/-- Who holds what. -/
def held {τ : Type} (s : St τ) : τ → Holds := fun t => holds (s.status t)

/-- A function of the lock, under the mutex: what it does for a thread that holds `h`. -/
abbrev Body := Call → Holds → Rw → Stretch Rw Holds Cond Wait

/-- An implementation: the functions from their start, and from the return of their wait. -/
def code (τ : Type) (enter again : Body) : Code Rw τ Holds Cond Wait Call where
  may _ h f := May h f
  enter f _ h rw := enter f h rw
  resume p _ rw := again p.call p.holds rw

variable {τ : Type}

/-! ## What the lock is for -/

section Spec

/-- At most one writer, and no reader beside it. -/
structure Apart (f : τ → Holds) : Prop where
  one : ∀ {t u}, (f t).writing = true → (f u).writing = true → t = u
  alone : ∀ {t u}, (f t).writing = true → (f u).reading = false

/-- Nobody writes: readers and writers are apart. -/
theorem Apart.of_no_writer {f : τ → Holds} (h : ∀ u, (f u).writing = false) : Apart f := by
  refine ⟨fun {t u} ht _ => ?_, fun {t u} ht => ?_⟩
  · rw [h t] at ht
    cases ht
  · rw [h t] at ht
    cases ht

variable [DecidableEq τ]

/-- A thread is let in, or gives up what it holds. -/
inductive Grant : (τ → Holds) → τ × Call → (τ → Holds) → Prop
  | readerLock {f : τ → Holds} {t : τ} : (∀ u, (f u).writing = false) → (f t).reading = false →
      Grant f (t, .readerLock) (Function.update f t ((f t).setReading true))
  | readerUnlock {f : τ → Holds} {t : τ} : (f t).reading = true →
      Grant f (t, .readerUnlock) (Function.update f t ((f t).setReading false))
  | writerLock {f : τ → Holds} {t : τ} : (∀ u, f u = .none) →
      Grant f (t, .writerLock) (Function.update f t ((f t).setWriting true))
  | writerUnlock {f : τ → Holds} {t : τ} : (f t).writing = true →
      Grant f (t, .writerUnlock) (Function.update f t ((f t).setWriting false))

/-- The reader-writer lock as it should be: any number of readers, or one writer. -/
def spec : Lts (τ → Holds) (τ × Call) where
  start f := ∀ t, f t = .none
  step := Grant

/-- Where reading changes only, the writers stay. -/
theorem writing_setReading (f : τ → Holds) (t : τ) (b : Bool) (u : τ) :
    (Function.update f t ((f t).setReading b) u).writing = (f u).writing := by
  by_cases hu : u = t
  · rw [hu, Function.update_self]
    rfl
  · rw [Function.update_of_ne hu]

/-- A grant keeps readers and writers apart. -/
theorem Grant.apart {f f' : τ → Holds} {a : τ × Call} (h : Grant f a f') (ha : Apart f) :
    Apart f' := by
  cases h with
  | @readerLock t hfree _ =>
    refine Apart.of_no_writer fun u => ?_
    rw [writing_setReading, hfree u]
  | @readerUnlock t _ =>
    refine ⟨fun {v u} hv hu => ?_, fun {v u} hv => ?_⟩
    · rw [writing_setReading] at hv hu
      exact ha.one hv hu
    · rw [writing_setReading] at hv
      by_cases hu : u = t
      · rw [hu, Function.update_self]
        rfl
      · rw [Function.update_of_ne hu]
        exact ha.alone hv
  | @writerLock t hfree =>
    -- `t` is the only writer, and nobody reads
    have hw : ∀ {u}, (Function.update f t ((f t).setWriting true) u).writing = true →
        u = t := by
      intro u hu
      by_contra hne
      rw [Function.update_of_ne hne, hfree u] at hu
      cases hu
    refine ⟨fun {v u} hv hu => ?_, fun {v u} _ => ?_⟩
    · rw [hw hv, hw hu]
    · by_cases hu : u = t
      · rw [hu, Function.update_self, hfree t]
        rfl
      · rw [Function.update_of_ne hu, hfree u]
        rfl
  | @writerUnlock t ht =>
    refine Apart.of_no_writer fun u => ?_
    by_cases hu : u = t
    · rw [hu, Function.update_self]
      rfl
    · rw [Function.update_of_ne hu]
      by_contra hne
      exact hu (ha.one (Bool.not_eq_false _ ▸ hne) ht)

/-- **The lock excludes**: who writes does so alone. -/
theorem spec_apart {f : τ → Holds} (h : spec.Reach f) : Apart f := by
  refine Lts.Reach.invariant (I := Apart) (fun f h0 => Apart.of_no_writer fun u => ?_)
    (fun g a g' ha hst => ?_) h
  · rw [h0 u]
    rfl
  · have hgrant : Grant g a g' := hst
    exact hgrant.apart ha

end Spec

/-! ## The counters -/

section Counters

variable [DecidableEq τ] [Fintype τ]

theorem count_writing_setReading (f : τ → Holds) (t : τ) (b : Bool) :
    count Holds.writing (Function.update f t ((f t).setReading b)) = count Holds.writing f :=
  count_update_same rfl

theorem count_reading_setWriting (f : τ → Holds) (t : τ) (b : Bool) :
    count Holds.reading (Function.update f t ((f t).setWriting b)) = count Holds.reading f :=
  count_update_same rfl

/-- The counters of `rw` are right for a state of the specification. -/
structure Implements (rw : Rw) (f : τ → Holds) : Prop where
  reach : spec.Reach f
  readers : rw.numReaders = count Holds.reading f
  writers : rw.writerPresent = count Holds.writing f

namespace Implements

variable {rw rw' : Rw} {f : τ → Holds} {t : τ}

theorem free_of_writers (h : Implements rw f) (hw : rw.writerPresent = 0) (u : τ) :
    (f u).writing = false := by
  have hz : count Holds.writing f = 0 := by
    have := h.writers
    omega
  exact count_eq_zero.mp hz u

theorem free_of_readers (h : Implements rw f) (hr : rw.numReaders = 0) (u : τ) :
    (f u).reading = false := by
  have hz : count Holds.reading f = 0 := by
    have := h.readers
    omega
  exact count_eq_zero.mp hz u

/-- While a thread reads, the counters say so. -/
theorem of_reading (h : Implements rw f) (ht : (f t).reading = true) :
    0 < rw.numReaders ∧ rw.writerPresent = 0 := by
  have hpos := count_pos (P := Holds.reading) (f := f) ht
  have hz : count Holds.writing f = 0 := by
    refine count_eq_zero.mpr fun u => ?_
    by_contra hu
    have hno := (spec_apart h.reach).alone (u := t) (Bool.not_eq_false _ ▸ hu)
    rw [ht] at hno
    cases hno
  have hr := h.readers
  have hw := h.writers
  omega

/-- The counter of writers is the flag that its name says. -/
theorem writers_le (h : Implements rw f) : rw.writerPresent = 0 ∨ rw.writerPresent = 1 := by
  have hle : count Holds.writing f ≤ 1 := by
    refine Finset.card_le_one.mpr fun t ht u hu => ?_
    exact (spec_apart h.reach).one (Finset.mem_filter.mp ht).2 (Finset.mem_filter.mp hu).2
  have hw := h.writers
  omega

/-- The flag is up exactly while one thread writes. -/
theorem writerPresent_iff (h : Implements rw f) :
    rw.writerPresent = 1 ↔ ∃! t, (f t).writing = true := by
  have hwrites := h.writers
  constructor
  · intro hw
    obtain ⟨t, ht⟩ := exists_of_count_pos (P := Holds.writing) (f := f) (by omega)
    exact ⟨t, ht, fun u hu => (spec_apart h.reach).one hu ht⟩
  · rintro ⟨t, ht, -⟩
    have hpos := count_pos (P := Holds.writing) (f := f) ht
    have hle := h.writers_le
    omega

/-- Other fields do not matter. -/
theorem congr (h : Implements rw f) (hr : rw'.numReaders = rw.numReaders)
    (hw : rw'.writerPresent = rw.writerPresent) : Implements rw' f :=
  ⟨h.reach, by rw [hr, h.readers], by rw [hw, h.writers]⟩

theorem readerLock (h : Implements rw f) (hfree : rw.writerPresent = 0)
    (ht : (f t).reading = false) (hr : rw'.numReaders = rw.numReaders + 1)
    (hw : rw'.writerPresent = rw.writerPresent) :
    Implements rw' (Function.update f t ((f t).setReading true)) := by
  refine ⟨.step h.reach (.readerLock (h.free_of_writers hfree) ht), ?_, ?_⟩
  · have hone : count Holds.reading (Function.update f t ((f t).setReading true)) =
        count Holds.reading f + 1 := count_update_add ht rfl
    rw [hone, hr, h.readers, Int.natCast_add, Int.natCast_one]
  · rw [count_writing_setReading, hw, h.writers]

theorem readerUnlock (h : Implements rw f) (ht : (f t).reading = true)
    (hr : rw'.numReaders = rw.numReaders - 1) (hw : rw'.writerPresent = rw.writerPresent) :
    Implements rw' (Function.update f t ((f t).setReading false)) := by
  refine ⟨.step h.reach (.readerUnlock ht), ?_, ?_⟩
  · have hone : count Holds.reading (Function.update f t ((f t).setReading false)) + 1 =
        count Holds.reading f := count_update_sub ht rfl
    rw [hr, h.readers, ← hone, Int.natCast_add, Int.natCast_one, Int.add_sub_cancel]
  · rw [count_writing_setReading, hw, h.writers]

theorem writerLock (h : Implements rw f) (hnr : rw.numReaders = 0) (hnw : rw.writerPresent = 0)
    (hr : rw'.numReaders = rw.numReaders) (hw : rw'.writerPresent = 1) :
    Implements rw' (Function.update f t ((f t).setWriting true)) := by
  have hnone : ∀ u, f u = .none := fun u =>
    congrArg₂ Holds.mk (h.free_of_readers hnr u) (h.free_of_writers hnw u)
  refine ⟨.step h.reach (.writerLock hnone), ?_, ?_⟩
  · rw [count_reading_setWriting, hr, h.readers]
  · have hone : count Holds.writing (Function.update f t ((f t).setWriting true)) =
        count Holds.writing f + 1 := count_update_add (h.free_of_writers hnw t) rfl
    rw [hone, hw, Int.natCast_add, Int.natCast_one, ← h.writers, hnw, Int.zero_add]

theorem writerUnlock (h : Implements rw f) (ht : (f t).writing = true)
    (hr : rw'.numReaders = rw.numReaders) (hw : rw'.writerPresent = 0) :
    Implements rw' (Function.update f t ((f t).setWriting false)) := by
  refine ⟨.step h.reach (.writerUnlock ht), ?_, ?_⟩
  · rw [count_reading_setWriting, hr, h.readers]
  · have hone : count Holds.writing (Function.update f t ((f t).setWriting false)) + 1 =
        count Holds.writing f := count_update_sub ht rfl
    have hwrites := h.writers
    have hle := h.writers_le
    omega

end Implements

end Counters

end OsCodes.Rwlock
