/-
  The file system log of xv6-public (log.c), over the buffer cache and the disk.

  One event is what a process does between taking and releasing `log.lock` or a buffer's sleep
  lock, or one disk write of the process that is in `commit` or in `recover_from_log`; other
  processes run in between, and the machine can crash between any two.  `log_write` looks at
  `log.lh.n` before it takes the lock, so it is two events.

  The cache is what the log sees of bio.c: which blocks have a valid buffer.  Any block may be
  read into the cache, and one whose buffer is neither `B_DIRTY` nor in use may be dropped, at any
  time.  A block is a disk sector, so that one disk write is not divided by a crash.

  The functions of log.c are cut at their disk writes: `advance` is the step from one to the next,
  for `recover_from_log` and for `commit` alike, and `advance_cases` lists them.  The header is
  the block of `int`s that it is, read with `blockno`, so a header with a number that is no block
  number is possible and excluded by an invariant only.  `log_write` is called with a buffer that
  the caller has locked.
-/
import Mathlib.Logic.Function.Basic
import OsCodes.Lib.Block
import OsCodes.Lib.Lts

namespace OsCodes.Log

open Bytes

/-! ## The disk -/

abbrev BSIZE : Nat := 512
abbrev MAXOPBLOCKS : Nat := 10
abbrev LOGSIZE : Nat := MAXOPBLOCKS * 3

/-- The contents of a block. -/
abbrev Data := Block BSIZE

abbrev Disk := Nat → Data

/-- The fields of the superblock that `initlog` reads. -/
structure Superblock where
  logstart : Nat
  nlog : Nat

/-- The superblock that `mkfs` writes: `nlog` is `LOGSIZE`. -/
def mkfs : Superblock := ⟨2, LOGSIZE⟩

/-- What an `int` of the header says as the `uint blockno` of `bread`. -/
def blockno (v : Int32) : Nat := v.toUInt32.toNat

/-- `read_head`: the numbers that `lh->n` and `lh->block` hold. -/
def readHead (buf : Data) : List Nat :=
  (get32s buf.mem 4 (get32 buf.mem 0).toInt.toNat).map blockno

/-- `write_head`, on the data of the header block. -/
def writeHead (buf : Data) (lh : List Nat) : Data :=
  let hb := put32 buf.mem 0 (Int32.ofNat lh.length)
  Block.ofMem (put32s hb 4 (lh.map Int32.ofNat))

theorem blockno_ofNat {b : Nat} (h : b < 4294967296) : blockno (Int32.ofNat b) = b := by
  rw [blockno, Int32.toUInt32_ofNat', UInt32.toNat_ofNat']
  exact Nat.mod_eq_of_lt h

/-- **The header is read back as it was written**, whatever the block held before. -/
theorem readHead_writeHead (buf : Data) {lh : List Nat} (hlen : lh.length ≤ LOGSIZE)
    (hlh : ∀ b ∈ lh, b < 4294967296) : readHead (writeHead buf lh) = lh := by
  have hsize : LOGSIZE = 30 := rfl
  have hbyte : ∀ k, k < 4 + 4 * lh.length → (writeHead buf lh).mem k =
      put32s (put32 buf.mem 0 (Int32.ofNat lh.length)) 4 (lh.map Int32.ofNat) k :=
    fun k hk => Block.mem_ofMem (show k < 512 by omega)
  have hn : get32 (writeHead buf lh).mem 0 = Int32.ofNat lh.length := by
    rw [get32_congr fun k hk => hbyte (0 + k) (by omega), get32_put32s_of_le (Nat.le_refl _),
      get32_put32]
  have hnat : (Int32.ofNat lh.length).toInt.toNat = lh.length := by
    rw [Int32.toInt_ofNat_of_lt (by omega)]
    rfl
  have hblocks := get32s_put32s (lh.map Int32.ofNat) (put32 buf.mem 0 (Int32.ofNat lh.length)) 4
  rw [List.length_map] at hblocks
  rw [readHead, hn, hnat, get32s_congr hbyte, hblocks, List.map_map]
  calc lh.map (blockno ∘ Int32.ofNat) = lh.map id :=
        List.map_congr_left fun b hb => blockno_ofNat (hlh b hb)
    _ = lh := List.map_id lh

/-! ## The state -/

/-- Where a process is: outside, asleep in `begin_op`, in a call, in `log_write`, or in `end_op`. -/
inductive Proc
  | out
  /-- In the `sleep` of `begin_op`. -/
  | asleep
  /-- Awake again there, or about to call `begin_op`. -/
  | woken
  /-- In a file system call, whose `log_write`s so far were for the blocks `mine`. -/
  | inOp (mine : List Nat)
  /-- The same, with `b`'s buffer locked and modified. -/
  | holding (mine : List Nat) (b : Nat)
  /-- The same, in `log_write`, past the two `panic`s. -/
  | checked (mine : List Nat) (b : Nat)
  /-- In `end_op`, with `do_commit` set. -/
  | ending
  deriving DecidableEq

/-- What the process that is in `recover_from_log` or in `commit` does next. -/
inductive Pc
  | boot
  | writeLog (tail : Nat)
  | head
  | install (tail : Nat)
  | erase
  | rest
  deriving DecidableEq

/-- A buffer with `B_VALID` set.  `lock` is the process that modifies it. -/
structure Buf (τ : Type) where
  data : Data
  dirty : Bool
  lock : Option τ

/-- The disk, the cache, the globals of log.c, where `commit` or `recover_from_log` is, and where
    each process is. -/
structure State (τ : Type) where
  disk : Disk
  cache : Nat → Option (Buf τ)
  /-- `log.lh.block[0..log.lh.n)`. -/
  lh : List Nat
  outstanding : Nat
  committing : Bool
  /-- `initlog` has returned. -/
  up : Bool
  pc : Pc
  proc : τ → Proc

/-- What happens next: a process takes one of its steps, `commit` or `recover_from_log` takes one,
    the cache changes on its own, or the machine crashes. -/
inductive Event (τ : Type)
  /-- One turn of the loop of `begin_op`. -/
  | beginOp (t : τ)
  /-- `bread(b)` and the call's own writes to `bp->data`. -/
  | modify (t : τ) (b : Nat) (v : Data)
  | check (t : τ)
  | logWrite (t : τ)
  | endOp (t : τ)
  /-- The next step of `commit` or `recover_from_log`. -/
  | advance
  /-- The last part of `end_op`. -/
  | finish (t : τ)
  | fill (b : Nat)
  | evict (b : Nat)
  /-- `kill` makes a sleeping process runnable. -/
  | spurious (t : τ)
  | crash

section Code

variable {τ : Type}

/-- The data that `bread` returns. -/
def State.look (s : State τ) (b : Nat) : Data :=
  match s.cache b with
  | some buf => buf.data
  | none => s.disk b

/-- `bread(b)`, on the cache. -/
def State.bread (s : State τ) (b : Nat) : State τ :=
  { s with cache := match s.cache b with
                    | some _ => s.cache
                    | none => Function.update s.cache b (some ⟨s.disk b, false, none⟩) }

/-- `bread(b)`, the buffer's data replaced by `v`, `bwrite`. -/
def State.bwrite (s : State τ) (b : Nat) (v : Data) : State τ :=
  { s with disk := Function.update s.disk b v
           cache := Function.update s.cache b (some ⟨v, false, none⟩) }

/-- The turn of `install_trans`'s loop for the block `b`, whose copy is in the log block `l`. -/
def State.installTrans (s : State τ) (l b : Nat) : State τ := (s.bread l).bwrite b (s.look l)

/-- The turn of `write_log`'s loop for the block `b`, whose copy goes to the log block `l`. -/
def State.writeLog (s : State τ) (l b : Nat) : State τ := (s.bread b).bwrite l (s.look b)

variable (sb : Superblock)

/-- `write_head`. -/
def State.writeHead (s : State τ) : State τ :=
  s.bwrite sb.logstart (Log.writeHead (s.look sb.logstart) s.lh)

/-- `recover_from_log` and `commit`, from one disk write to the next. -/
def advance (s : State τ) : Option (State τ) :=
  match s.pc with
  | .boot => some { s.bread sb.logstart with lh := readHead (s.look sb.logstart), pc := .install 0 }
  | .writeLog tail =>
    match s.lh[tail]? with
    | some b => some { s.writeLog (sb.logstart + tail + 1) b with pc := .writeLog (tail + 1) }
    | none => some { s with pc := .head }
  | .head => some { s.writeHead sb with pc := .install 0 }
  | .install tail =>
    match s.lh[tail]? with
    | some b => some { s.installTrans (sb.logstart + tail + 1) b with pc := .install (tail + 1) }
    | none => some { s with lh := [], pc := .erase }
  | .erase => some { s.writeHead sb with pc := .rest, up := true }
  | .rest => none

/-- The steps of `commit` and `recover_from_log`, one by one. -/
theorem advance_cases {sb : Superblock} {s s' : State τ} (h : advance sb s = some s') :
    (s.pc = .boot ∧ s' = { s.bread sb.logstart with
        lh := readHead (s.look sb.logstart), pc := .install 0 }) ∨
    (∃ tail b, s.pc = .writeLog tail ∧ s.lh[tail]? = some b ∧
      s' = { s.writeLog (sb.logstart + tail + 1) b with pc := .writeLog (tail + 1) }) ∨
    (∃ tail, s.pc = .writeLog tail ∧ s.lh[tail]? = none ∧ s' = { s with pc := .head }) ∨
    (s.pc = .head ∧ s' = { s.writeHead sb with pc := .install 0 }) ∨
    (∃ tail b, s.pc = .install tail ∧ s.lh[tail]? = some b ∧
      s' = { s.installTrans (sb.logstart + tail + 1) b with pc := .install (tail + 1) }) ∨
    (∃ tail, s.pc = .install tail ∧ s.lh[tail]? = none ∧
      s' = { s with lh := [], pc := .erase }) ∨
    (s.pc = .erase ∧ s' = { s.writeHead sb with pc := .rest, up := true }) := by
  unfold advance at h
  split at h
  · exact .inl ⟨‹_›, (Option.some.inj h).symm⟩
  · split at h
    · exact .inr (.inl ⟨_, _, ‹_›, ‹_›, (Option.some.inj h).symm⟩)
    · exact .inr (.inr (.inl ⟨_, ‹_›, ‹_›, (Option.some.inj h).symm⟩))
  · exact .inr (.inr (.inr (.inl ⟨‹_›, (Option.some.inj h).symm⟩)))
  · split at h
    · exact .inr (.inr (.inr (.inr (.inl ⟨_, _, ‹_›, ‹_›, (Option.some.inj h).symm⟩))))
    · exact .inr (.inr (.inr (.inr (.inr (.inl ⟨_, ‹_›, ‹_›, (Option.some.inj h).symm⟩)))))
  · exact .inr (.inr (.inr (.inr (.inr (.inr ⟨‹_›, (Option.some.inj h).symm⟩)))))
  · cases h

/-- `wakeup(&log)`. -/
def wakeup (proc : τ → Proc) : τ → Proc := fun t =>
  match proc t with
  | .asleep => .woken
  | x => x

/-- The test of `begin_op` that lets a call start. -/
def mayBegin (s : State τ) : Bool :=
  !s.committing && decide (s.lh.length + (s.outstanding + 1) * MAXOPBLOCKS ≤ LOGSIZE)

/-- The two `panic`s of `log_write`: the log is full, or no call is in progress. -/
def panics (s : State τ) : Bool :=
  decide (LOGSIZE ≤ s.lh.length ∨ sb.nlog ≤ s.lh.length + 1) || decide (s.outstanding < 1)

variable [DecidableEq τ]

def setProc (s : State τ) (t : τ) (x : Proc) : State τ :=
  { s with proc := Function.update s.proc t x }

/-- `begin_op`, up to its `sleep` or its `break`. -/
def beginOp (s : State τ) (t : τ) : State τ :=
  if mayBegin s then { setProc s t (.inOp []) with outstanding := s.outstanding + 1 }
  else setProc s t .asleep

/-- `log_write` under the lock, and the `brelse` that follows it. -/
def logWrite (s : State τ) (t : τ) (mine : List Nat) (b : Nat) (buf : Buf τ) : State τ :=
  { setProc s t (.inOp (if b ∈ mine then mine else b :: mine)) with
    lh := if b ∈ s.lh then s.lh else s.lh ++ [b]
    cache := Function.update s.cache b (some ⟨buf.data, true, none⟩) }

/-- `end_op`, up to the call of `commit` and `commit`'s test. -/
def endOp (s : State τ) (t : τ) : State τ :=
  if s.outstanding - 1 = 0 then
    { setProc s t .ending with outstanding := 0, committing := true
                               pc := if s.lh = [] then .rest else .writeLog 0 }
  else
    { setProc s t .out with outstanding := s.outstanding - 1
                            proc := wakeup (Function.update s.proc t .out) }

/-- The end of `end_op`, after `commit`. -/
def finish (s : State τ) (t : τ) : State τ :=
  { s with committing := false, proc := wakeup (Function.update s.proc t .out) }

/-- What a crash leaves: the disk, and nothing of the memory or of the processes. -/
def crash (s : State τ) : State τ :=
  ⟨s.disk, fun _ => none, [], 0, false, false, .boot, fun _ => .out⟩

/-- What an event makes of the state; `none` where it cannot happen there. -/
def apply (s : State τ) : Event τ → Option (State τ)
  | .beginOp t =>
    if s.up ∧ (s.proc t = .out ∨ s.proc t = .woken) then some (beginOp s t) else none
  | .modify t b v =>
    match s.proc t, s.cache b with
    | .inOp mine, some ⟨_, dirty, none⟩ =>
      some { setProc s t (.holding mine b) with
             cache := Function.update s.cache b (some ⟨v, dirty, some t⟩) }
    | _, _ => none
  | .check t =>
    match s.proc t with
    | .holding mine b => if panics sb s then none else some (setProc s t (.checked mine b))
    | _ => none
  | .logWrite t =>
    match s.proc t with
    | .checked mine b =>
      match s.cache b with
      | some buf => some (logWrite s t mine b buf)
      | none => none
    | _ => none
  | .endOp t =>
    match s.proc t with
    | .inOp _ => if s.committing then none else some (endOp s t)
    | _ => none
  | .advance => advance sb s
  | .finish t => if s.proc t = .ending ∧ s.pc = .rest then some (finish s t) else none
  | .fill b => some (s.bread b)
  | .evict b =>
    match s.cache b with
    | some ⟨_, false, none⟩ => some { s with cache := Function.update s.cache b none }
    | _ => none
  | .spurious t => if s.proc t = .asleep then some (setProc s t .woken) else none
  | .crash => some (crash s)

/-- The power is switched on. -/
def poweron (disk : Disk) : State τ :=
  ⟨disk, fun _ => none, [], 0, false, false, .boot, fun _ => .out⟩

/-- All runs of the file system calls from a disk on. -/
def system (disk : Disk) : Lts (State τ) (Event τ) where
  start s := s = poweron disk
  step s e s' := apply sb s e = some s'

/-! ## What an event needs and does -/

variable {sb} {s s' : State τ} {t : τ} {b : Nat} {v : Data}

theorem apply_beginOp (h : apply sb s (.beginOp t) = some s') :
    s.up = true ∧ (s.proc t = .out ∨ s.proc t = .woken) ∧ s' = beginOp s t := by
  simp only [apply] at h
  split at h
  · rename_i hok
    exact ⟨hok.1, hok.2, (Option.some.inj h).symm⟩
  · cases h

theorem apply_modify (h : apply sb s (.modify t b v) = some s') :
    ∃ mine data dirty, s.proc t = .inOp mine ∧ s.cache b = some ⟨data, dirty, none⟩ ∧
      s' = { setProc s t (.holding mine b) with
             cache := Function.update s.cache b (some ⟨v, dirty, some t⟩) } := by
  simp only [apply] at h
  split at h
  · rename_i mine data dirty hproc hcache
    exact ⟨mine, data, dirty, hproc, hcache, (Option.some.inj h).symm⟩
  · cases h

theorem apply_check (h : apply sb s (.check t) = some s') :
    ∃ mine b, s.proc t = .holding mine b ∧ panics sb s = false ∧
      s' = setProc s t (.checked mine b) := by
  simp only [apply] at h
  split at h
  · rename_i mine b hproc
    split at h
    · cases h
    · rename_i hno
      exact ⟨mine, b, hproc, by rwa [Bool.not_eq_true] at hno, (Option.some.inj h).symm⟩
  · cases h

theorem apply_logWrite (h : apply sb s (.logWrite t) = some s') :
    ∃ mine b buf, s.proc t = .checked mine b ∧ s.cache b = some buf ∧
      s' = logWrite s t mine b buf := by
  simp only [apply] at h
  split at h
  · rename_i mine b hproc
    split at h
    · rename_i buf hbuf
      exact ⟨mine, b, buf, hproc, hbuf, (Option.some.inj h).symm⟩
    · cases h
  · cases h

theorem apply_endOp (h : apply sb s (.endOp t) = some s') :
    ∃ mine, s.proc t = .inOp mine ∧ s.committing = false ∧ s' = endOp s t := by
  simp only [apply] at h
  split at h
  · rename_i mine hproc
    split at h
    · cases h
    · rename_i hno
      exact ⟨mine, hproc, by rwa [Bool.not_eq_true] at hno, (Option.some.inj h).symm⟩
  · cases h

theorem apply_finish (h : apply sb s (.finish t) = some s') :
    s.proc t = .ending ∧ s.pc = .rest ∧ s' = finish s t := by
  simp only [apply] at h
  split at h
  · rename_i hok
    exact ⟨hok.1, hok.2, (Option.some.inj h).symm⟩
  · cases h

theorem apply_evict (h : apply sb s (.evict b) = some s') :
    ∃ data, s.cache b = some ⟨data, false, none⟩ ∧
      s' = { s with cache := Function.update s.cache b none } := by
  simp only [apply] at h
  split at h
  · rename_i data hcache
    exact ⟨data, hcache, (Option.some.inj h).symm⟩
  · cases h

theorem apply_spurious (h : apply sb s (.spurious t) = some s') :
    s.proc t = .asleep ∧ s' = setProc s t .woken := by
  simp only [apply] at h
  split at h
  · rename_i hok
    exact ⟨hok, (Option.some.inj h).symm⟩
  · cases h

end Code

end OsCodes.Log
