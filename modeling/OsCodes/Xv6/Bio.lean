/-
  The buffer cache of xv6-public (bio.c), with `iderw`.

  One event is what a process does between taking and releasing `bcache.lock`, or one step of the
  process that holds a buffer's sleep lock; other processes run in between.  A client is one use of a
  buffer, from `bget` to `brelse`: a process that holds two buffers is two clients.

  The buffers are linked in a ring through `bcache.head`, which is `none` among the pointers.

  The data of a buffer are what its holder has put there, so a buffer without `B_VALID` has old
  data of some other block; `bget` leaves them, as the source does.  What the disk does is
  `iderw`: it reads or writes one block, and nothing else changes the disk.  `polite` is what
  bio.c asks of its clients, by name: without it a changed buffer could be recycled.
-/
import OsCodes.Lib.Budget
import OsCodes.Lib.Ring
import OsCodes.Xv6.Log

namespace OsCodes.Bio

open Log (Data MAXOPBLOCKS)

abbrev NBUF : Nat := MAXOPBLOCKS * 3

/-! ## The state -/

/-- A block of a device. -/
structure Block where
  dev : Nat
  blockno : Nat
  deriving DecidableEq

abbrev Disk := Block → Data

/-- `struct buf`, its links apart.  `lock` is the holder of its sleep lock. -/
structure Buf (τ : Type) where
  block : Block
  valid : Bool
  dirty : Bool
  refcnt : Nat
  data : Data
  lock : Option τ

/-- A pointer into `bcache.buf`, or to `bcache.head`. -/
abbrev Ptr := Option (Fin NBUF)

/-- How far a client is: on the way to a buffer, with it, or on the way out of `brelse`. -/
inductive Phase
  | out
  /-- In `acquiresleep`, with the buffer that `bget` found. -/
  | want (k : Block) (i : Fin NBUF)
  /-- In the `iderw` of `bread`. -/
  | read (k : Block) (i : Fin NBUF)
  /-- `bread` has returned.  `touched`: the data were changed and not written yet. -/
  | has (k : Block) (i : Fin NBUF) (touched : Bool)
  /-- In `brelse`, past `releasesleep`. -/
  | released (k : Block) (i : Fin NBUF)
  deriving DecidableEq

/-- The disk, the buffers, the links of the ring, and how far each client is. -/
structure State (τ : Type) where
  disk : Disk
  buf : Fin NBUF → Buf τ
  next : Ptr → Ptr
  prev : Ptr → Ptr
  phase : τ → Phase

/-- What a client does next, each between taking and releasing a lock, or under the lock of its
    buffer. -/
inductive Event (τ : Type)
  | bget (t : τ) (k : Block)
  | acquire (t : τ)
  | read (t : τ)
  /-- The client writes into `b->data`. -/
  | modify (t : τ) (v : Data)
  /-- `log_write` sets `B_DIRTY`. -/
  | pin (t : τ)
  | bwrite (t : τ)
  | release (t : τ)
  | unref (t : τ)

/-! ## The code -/

section Code

variable {τ : Type}

/-- The links of a ring after the assignments that put `b` behind the head. -/
def linkFront (next prev : Ptr → Ptr) (b : Fin NBUF) : (Ptr → Ptr) × (Ptr → Ptr) :=
  (Function.update (Function.update next (some b) (next none)) none (some b),
   Function.update (Function.update prev (some b) none) (next none) (some b))

/-- The links after the assignments that take `b` out. -/
def unlink (next prev : Ptr → Ptr) (b : Fin NBUF) : (Ptr → Ptr) × (Ptr → Ptr) :=
  (Function.update next (prev (some b)) (next (some b)),
   Function.update prev (next (some b)) (prev (some b)))

/-- `binit`. -/
def binit : (Ptr → Ptr) × (Ptr → Ptr) :=
  (List.finRange NBUF).foldl (fun l b => linkFront l.1 l.2 b) (fun _ => none, fun _ => none)

/-- The test of the first loop of `bget`. -/
def caches (s : State τ) (k : Block) : Ptr → Bool
  | some i => decide ((s.buf i).block = k)
  | none => false

/-- The test of its second loop. -/
def unused (s : State τ) : Ptr → Bool
  | some i => decide ((s.buf i).refcnt = 0) && !(s.buf i).dirty
  | none => false

/-- The first loop of `bget`, from the most recently used buffer on. -/
def cached (s : State τ) (k : Block) : Ptr :=
  (Ring.scan s.next none (caches s k) (NBUF + 1) (s.next none)).join

/-- Its second loop, from the least recently used one on. -/
def victim (s : State τ) : Ptr :=
  (Ring.scan s.prev none (unused s) (NBUF + 1) (s.prev none)).join

def setBuf (s : State τ) (i : Fin NBUF) (b : Buf τ) : State τ :=
  { s with buf := Function.update s.buf i b }

/-- `iderw(b)`, until the disk has answered. -/
def iderw (s : State τ) (i : Fin NBUF) : State τ :=
  let b := s.buf i
  if b.dirty then
    { setBuf s i { b with valid := true, dirty := false } with
      disk := Function.update s.disk b.block b.data }
  else setBuf s i { b with data := s.disk b.block, valid := true }

variable [DecidableEq τ]

def setPhase (s : State τ) (t : τ) (p : Phase) : State τ :=
  { s with phase := Function.update s.phase t p }

/-- `bget` under `bcache.lock`; `none` is the `panic`. -/
def bget (s : State τ) (t : τ) (k : Block) : Option (State τ) :=
  match cached s k with
  | some i => some (setPhase (setBuf s i { s.buf i with refcnt := (s.buf i).refcnt + 1 }) t (.want k i))
  | none =>
    match victim s with
    | some i => some (setPhase (setBuf s i
        { s.buf i with block := k, valid := false, dirty := false, refcnt := 1 }) t (.want k i))
    | none => none

/-- `acquiresleep`, and the test of `bread`. -/
def acquire (s : State τ) (t : τ) (k : Block) (i : Fin NBUF) : State τ :=
  setPhase (setBuf s i { s.buf i with lock := some t }) t
    (if (s.buf i).valid then .has k i false else .read k i)

/-- `brelse` under `bcache.lock`: the last client puts the buffer to the front of the list. -/
def unref (s : State τ) (t : τ) (i : Fin NBUF) : State τ :=
  let s' := setPhase (setBuf s i { s.buf i with refcnt := (s.buf i).refcnt - 1 }) t .out
  if (s.buf i).refcnt - 1 = 0 then
    let l := unlink s.next s.prev i
    let l' := linkFront l.1 l.2 i
    { s' with next := l'.1, prev := l'.2 }
  else s'

/-- What an event makes of the state; `none` where it cannot happen there. -/
def apply (s : State τ) : Event τ → Option (State τ)
  | .bget t k => if s.phase t = .out then bget s t k else none
  | .acquire t =>
    match s.phase t with
    | .want k i => if (s.buf i).lock = none then some (acquire s t k i) else none
    | _ => none
  | .read t =>
    match s.phase t with
    | .read k i => some (setPhase (iderw s i) t (.has k i false))
    | _ => none
  | .modify t v =>
    match s.phase t with
    | .has k i _ => some (setPhase (setBuf s i { s.buf i with data := v }) t (.has k i true))
    | _ => none
  | .pin t =>
    match s.phase t with
    | .has k i _ => some (setPhase (setBuf s i { s.buf i with dirty := true }) t (.has k i false))
    | _ => none
  | .bwrite t =>
    match s.phase t with
    | .has k i _ =>
      some (setPhase (iderw (setBuf s i { s.buf i with dirty := true }) i) t (.has k i false))
    | _ => none
  | .release t =>
    match s.phase t with
    | .has k i _ => some (setPhase (setBuf s i { s.buf i with lock := none }) t (.released k i))
    | _ => none
  | .unref t =>
    match s.phase t with
    | .released _ i => some (unref s t i)
    | _ => none

/-- After `binit`. -/
def boot (disk : Disk) : State τ :=
  ⟨disk, fun _ => ⟨⟨0, 0⟩, false, false, 0, fun _ => 0, none⟩, binit.1, binit.2, fun _ => .out⟩

/-- The cache from boot on, over the given disk. -/
def system (disk : Disk) : Lts (State τ) (Event τ) where
  start s := s = boot disk
  step s e s' := apply s e = some s'

/-- What bio.c asks of its clients: device 0 is no disk of theirs, and a buffer whose data were
    changed is written, or marked `B_DIRTY`, before it is released. -/
def polite (s : State τ) : Event τ → Prop
  | .bget _ k => k.dev ≠ 0
  | .release t => ∀ k i, s.phase t ≠ .has k i true
  | _ => True

instance (s : State τ) : DecidablePred (polite s)
  | .bget _ k => inferInstanceAs (Decidable (k.dev ≠ 0))
  | .release t =>
    match h : s.phase t with
    | .has k i true => .isFalse fun hno => hno k i h
    | .has _ _ false | .out | .want _ _ | .read _ _ | .released _ _ =>
      .isTrue fun _ _ hno => by rw [h] at hno; cases hno
  | .acquire _ | .read _ | .modify _ _ | .pin _ | .bwrite _ | .unref _ => .isTrue trivial

/-! ## What an event needs and does -/

variable {s s' : State τ} {t : τ} {k : Block} {v : Data}

omit [DecidableEq τ] in
/-- The client that has a buffer from `bread`. -/
theorem has_cases {f : Block → Fin NBUF → Bool → State τ}
    (h : (match s.phase t with | .has k i touched => some (f k i touched) | _ => none) = some s') :
    ∃ k i touched, s.phase t = .has k i touched ∧ s' = f k i touched := by
  split at h
  · exact ⟨_, _, _, ‹_›, (Option.some.inj h).symm⟩
  · cases h

theorem bget_cases (h : bget s t k = some s') :
    (∃ i, cached s k = some i ∧
      s' = setPhase (setBuf s i { s.buf i with refcnt := (s.buf i).refcnt + 1 }) t (.want k i)) ∨
    ∃ i, cached s k = none ∧ victim s = some i ∧ s' = setPhase (setBuf s i
      { s.buf i with block := k, valid := false, dirty := false, refcnt := 1 }) t (.want k i) := by
  unfold bget at h
  split at h
  · exact .inl ⟨_, ‹_›, (Option.some.inj h).symm⟩
  · split at h
    · exact .inr ⟨_, ‹_›, ‹_›, (Option.some.inj h).symm⟩
    · cases h

theorem apply_bget (h : apply s (.bget t k) = some s') :
    s.phase t = .out ∧ bget s t k = some s' := Option.ite_none_right_eq_some.mp h

theorem apply_acquire (h : apply s (.acquire t) = some s') :
    ∃ k i, s.phase t = .want k i ∧ (s.buf i).lock = none ∧ s' = acquire s t k i := by
  simp only [apply] at h
  split at h
  · obtain ⟨hl, h⟩ := Option.ite_none_right_eq_some.mp h
    exact ⟨_, _, ‹_›, hl, (Option.some.inj h).symm⟩
  · cases h

theorem apply_read (h : apply s (.read t) = some s') :
    ∃ k i, s.phase t = .read k i ∧ s' = setPhase (iderw s i) t (.has k i false) := by
  simp only [apply] at h
  split at h
  · exact ⟨_, _, ‹_›, (Option.some.inj h).symm⟩
  · cases h

theorem apply_modify (h : apply s (.modify t v) = some s') :
    ∃ k i touched, s.phase t = .has k i touched ∧
      s' = setPhase (setBuf s i { s.buf i with data := v }) t (.has k i true) := has_cases h

theorem apply_pin (h : apply s (.pin t) = some s') :
    ∃ k i touched, s.phase t = .has k i touched ∧
      s' = setPhase (setBuf s i { s.buf i with dirty := true }) t (.has k i false) := has_cases h

theorem apply_bwrite (h : apply s (.bwrite t) = some s') :
    ∃ k i touched, s.phase t = .has k i touched ∧ s' = setPhase
      (iderw (setBuf s i { s.buf i with dirty := true }) i) t (.has k i false) := has_cases h

theorem apply_release (h : apply s (.release t) = some s') :
    ∃ k i touched, s.phase t = .has k i touched ∧
      s' = setPhase (setBuf s i { s.buf i with lock := none }) t (.released k i) := has_cases h

theorem apply_unref (h : apply s (.unref t) = some s') :
    ∃ k i, s.phase t = .released k i ∧ s' = unref s t i := by
  simp only [apply] at h
  split at h
  · exact ⟨_, _, ‹_›, (Option.some.inj h).symm⟩
  · cases h

end Code

end OsCodes.Bio
