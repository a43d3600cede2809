/-
  The pipes of pipe.c, and the reference counts of file.c that decide when a pipe is freed.

  The functions of pipe.c run with the pipe's lock, and those of file.c with the lock of the file
  table; what one of them does from the lock to the next `sleep` or to the unlock is one stretch of
  a monitor.  `sleep` waits on the address of a counter, and a `wakeup` wakes all that wait there.
  A process that is closing the last reference to an end has given up the lock of the file table
  and not yet called `pipeclose`.

  `kill` sets a flag that the sleeping process looks at when it runs again.  The flag can be set
  after `trap` has looked at it and before the pipe is locked, and between the test of it and the
  `sleep`; the wakeup that `kill` sends a sleeping process is one that comes for no reason here.
-/
import OsCodes.Lib.Budget
import OsCodes.Lib.Monitor
import OsCodes.Lib.RingBuffer

namespace OsCodes.Pipes

open Monitor

/-! ## The buffer -/

abbrev PIPESIZE : Nat := 512

/-- `struct pipe`. -/
structure Pipe extends RingBuffer UInt8 PIPESIZE 32 where
  readopen : Bool
  writeopen : Bool

namespace Pipe

/-- The `for` loop of `pipewrite` up to where the pipe is full: what is left to write. -/
def copyIn (p : Pipe) : List UInt8 → Pipe × List UInt8
  | [] => (p, [])
  | b :: bs =>
    if p.isFull then (p, b :: bs)
    else copyIn { p with toRingBuffer := p.put b } bs

/-- The `for` loop of `piperead`: what is read. -/
def copyOut (p : Pipe) : Nat → Pipe × List UInt8
  | 0 => (p, [])
  | n + 1 =>
    if p.isEmpty then (p, [])
    else
      let r := copyOut { p with toRingBuffer := p.next } n
      (r.1, p.front :: r.2)

/-- The end for writing (`true`), or for reading, is open. -/
def isOpen (p : Pipe) : Bool → Bool
  | true => p.writeopen
  | false => p.readopen

end Pipe

/-! ## Processes -/

/-- The addresses that processes sleep on. -/
inductive Channel
  | nread
  | nwrite
  deriving DecidableEq

/-- What a system call returned. -/
inductive Ret
  | none
  | failed
  | wrote (n : Nat)
  | read (n : Nat) (bytes : List UInt8)

/-- Where a process is outside the functions with a lock: `closing` is in `fileclose`, before the
    call of `pipeclose` for an end. -/
inductive Client
  | idle (ret : Ret)
  | closing (writable : Bool)

/-- The calls that sleep: what is left of a write of `n` bytes, and a read of up to `n`. -/
inductive Wait
  | write (n : Nat) (rest : List UInt8)
  | read (n : Nat)

/-- The calls.  The two ends are two `struct file`, of which one is writable. -/
inductive Call (τ : Type)
  | fileread (writable : Bool) (n : Nat)
  | filewrite (writable : Bool) (bytes : List UInt8)
  | filedup (u : τ) (writable : Bool)
  | fileclose (writable : Bool)
  | pipeclose (writable : Bool)
  | kill (u : τ)

/-- The pipe, the `ref` of its two files, how many descriptors of a process refer to each of them,
    and how often the page of the pipe was freed. -/
structure Shared (τ : Type) where
  pipe : Pipe
  ref : Bool → Nat
  fds : Bool → τ → Nat
  killed : τ → Bool
  freed : Nat
  panicked : Bool

section Code

variable {τ : Type} [DecidableEq τ]

abbrev Body (τ : Type) := Stretch (Shared τ) Client Channel Wait

/-- `pipealloc`, for process `t`, in a page with anything in it. -/
def pipealloc (t : τ) (data : Fin PIPESIZE → UInt8) : Shared τ where
  pipe :=
    { data := data
      nread := 0
      nwrite := 0
      readopen := true
      writeopen := true }
  ref _ := 1
  fds _ := Function.update (fun _ => 0) t 1
  killed _ := false
  freed := 0
  panicked := false

/-- `pipewrite` with `rest` left to write, from the lock or from the return of its `sleep`. -/
def pipewrite (n : Nat) (rest : List UInt8) (t : τ) (s : Shared τ) : Body τ :=
  let (p, rest) := s.pipe.copyIn rest
  let s := { s with pipe := p }
  match rest with
  | [] => ⟨s, [.broadcast .nread], .leave (.idle (.wrote n))⟩
  | rest =>
    if p.readopen = false ∨ s.killed t = true then ⟨s, [], .leave (.idle .failed)⟩
    else ⟨s, [.broadcast .nread], .wait .nwrite (.write n rest)⟩

/-- `piperead`, from the lock or from the return of its `sleep`. -/
def piperead (n : Nat) (t : τ) (s : Shared τ) : Body τ :=
  if s.pipe.isEmpty = true ∧ s.pipe.writeopen = true then
    if s.killed t = true then ⟨s, [], .leave (.idle .failed)⟩
    else ⟨s, [], .wait .nread (.read n)⟩
  else
    let (p, bytes) := s.pipe.copyOut n
    ⟨{ s with pipe := p }, [.broadcast .nwrite], .leave (.idle (.read n bytes))⟩

/-- `pipeclose`, with its `kfree`. -/
def pipeclose (writable : Bool) (s : Shared τ) : Body τ :=
  let p := if writable then { s.pipe with writeopen := false }
    else { s.pipe with readopen := false }
  let freed := if p.readopen = false ∧ p.writeopen = false then s.freed + 1 else s.freed
  ⟨{ s with pipe := p, freed := freed }, [.broadcast (if writable then .nread else .nwrite)],
    .leave (.idle .none)⟩

/-- `fileread` from one of the pipe's files. -/
def fileread (writable : Bool) (n : Nat) (t : τ) (s : Shared τ) : Body τ :=
  if writable then ⟨s, [], .leave (.idle .failed)⟩ else piperead n t s

/-- `filewrite` to one of the pipe's files. -/
def filewrite (writable : Bool) (bytes : List UInt8) (t : τ) (s : Shared τ) : Body τ :=
  if writable then pipewrite bytes.length bytes t s else ⟨s, [], .leave (.idle .failed)⟩

/-- `filedup`, into the descriptors of `u`. -/
def filedup (u : τ) (writable : Bool) (s : Shared τ) : Body τ :=
  if s.ref writable < 1 then ⟨{ s with panicked := true }, [], .leave (.idle .none)⟩
  else
    let fds := s.fds writable
    ⟨{ s with
        ref := Function.update s.ref writable (s.ref writable + 1)
        fds := Function.update s.fds writable (Function.update fds u (fds u + 1)) }, [],
      .leave (.idle .none)⟩

/-- `fileclose` up to its second unlock, with the descriptor that is given up. -/
def fileclose (writable : Bool) (t : τ) (s : Shared τ) : Body τ :=
  if s.ref writable < 1 then ⟨{ s with panicked := true }, [], .leave (.idle .none)⟩
  else
    let fds := s.fds writable
    let s := { s with
      ref := Function.update s.ref writable (s.ref writable - 1)
      fds := Function.update s.fds writable (Function.update fds t (fds t - 1)) }
    if 0 < s.ref writable then ⟨s, [], .leave (.idle .none)⟩
    else ⟨s, [], .leave (.closing writable)⟩

/-- `kill`. -/
def kill (u : τ) (s : Shared τ) : Body τ :=
  ⟨{ s with killed := Function.update s.killed u true }, [], .leave (.idle .none)⟩

/-- `pipeclose` is what `fileclose` goes on with, and nothing else calls it. -/
def may (c : Client) : Call τ → Prop
  | .pipeclose w => c = .closing w
  | _ => ∃ ret, c = .idle ret

/-- Which function a call runs, and where it goes on after its `sleep`. -/
def code (τ : Type) [DecidableEq τ] : Code (Shared τ) τ Client Channel Wait (Call τ) where
  may _ := may
  enter f t _ s :=
    match f with
    | .fileread w n => fileread w n t s
    | .filewrite w bytes => filewrite w bytes t s
    | .filedup u w => filedup u w s
    | .fileclose w => fileclose w t s
    | .pipeclose w => pipeclose w s
    | .kill u => kill u s
  resume p t s :=
    match p with
    | .write n rest => pipewrite n rest t s
    | .read n => piperead n t s

abbrev St (τ : Type) := State (Shared τ) τ Client Channel Wait

/-- A process names a file by a descriptor of its own; a copy goes to its own descriptors or to
    those of a child that does not run yet.  `kills` says whether `kill` is called at all. -/
def holds (kills : Bool) (s : St τ) : Event τ (Call τ) → Prop
  | .enter t (.fileread w _) | .enter t (.filewrite w _) | .enter t (.fileclose w) =>
    0 < s.shared.fds w t
  | .enter t (.filedup u w) => 0 < s.shared.fds w t ∧ ∃ ret, s.status u = .out (.idle ret)
  | .enter _ (.kill _) => kills = true
  | _ => True

/-- The processes around a pipe that `t` has made. -/
def made (t : τ) (s : St τ) : Prop :=
  (∃ data, s.shared = pipealloc t data) ∧ ∀ u, s.status u = .out (.idle .none)

/-- The pipe from `pipealloc` in thread `t` on.  Without `kills`, no call of `kill` is made. -/
def system (kills : Bool) (t : τ) : Lts (St τ) (Event τ (Call τ)) :=
  (Monitor.system (code τ) .some (made t)).guard (holds kills)

end Code

end OsCodes.Pipes
