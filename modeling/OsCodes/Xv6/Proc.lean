/-
  Processes: forking, growing and tearing down, and loads and stores from user mode.

  The kernel is parametrised by its `copyuvm`, so that it is xv6-public(1) with one and has the
  `fork` of xv6-public with the other.  A call that `kalloc` has no page for stops.  `Spec` says
  what the processes see: private memories, copied as a whole by `fork`.

  A store from user mode is the one place where the two kernels could differ: a write to a page
  that is shared faults, the handler makes a copy, and the store is made again.  `Spec` knows
  nothing of this; its `exec` copies the memory at a `fork` and changes one byte at a store.
-/
import OsCodes.Lib.Lts
import OsCodes.Xv6.UserMem

namespace OsCodes.Xv6

/-! ## The kernel -/

/-- The parts of `struct proc` that say what memory a process has. -/
structure Proc where
  sz : Nat
  pgdir : PgDir

/-- The memory and the process table; a slot without a process is `UNUSED`. -/
structure State (π : Type) where
  kmem : Kmem
  procs : π → Option Proc

/-- Conversion to `uint`. -/
def uint (n : Int) : Nat := (n % 4294967296).toNat

/-- The entry that an access from user mode goes through. -/
def userPte (d : PgDir) (v : Nat) (write : Bool) : Except Fault Pte :=
  match walkpgdir d v with
  | none => .error .pageFault
  | some pte => if pte.p && pte.u && (pte.w || !write) then .ok pte else .error .pageFault

/-- A load of one byte. -/
def load (d : PgDir) (a : Nat) (k : Kmem) : Except Fault UInt8 := do
  let pte ← userPte d (a / pgsize) false
  .ok (k.mem pte.page (a % pgsize))

/-- The memory after byte `a` of a page is written. -/
def Page.set (page : Page) (a : Nat) (b : UInt8) : Page := Function.update page (a % pgsize) b

def Kmem.store (k : Kmem) (page a : Nat) (b : UInt8) : Kmem :=
  { k with mem := Function.update k.mem page ((k.mem page).set a b) }

/-- A store of one byte.  A fault runs the handler, and the store is tried again. -/
def store (img : Image) (d : PgDir) (a : Nat) (b : UInt8) (k : Kmem) :
    Except Fault (PgDir × Kmem) :=
  match userPte d (a / pgsize) true with
  | .ok pte => .ok (d, k.store pte.page a b)
  | .error _ => do
    let (d, k) ← handlePgfltHelper img d (a / pgsize) k
    let pte ← userPte d (a / pgsize) true
    .ok (d, k.store pte.page a b)

/-- `growproc`: what it returns, the process and the memory. -/
def growproc (img : Image) (x : Proc) (n : Int) (k : Kmem) : Except Fault (Int × Proc × Kmem) :=
  if 0 < n then do
    let (sz, d, k) ← allocuvm x.pgdir x.sz (uint (x.sz + n)) k
    if sz = 0 then .ok (-1, ⟨x.sz, d⟩, k) else .ok (0, ⟨sz, d⟩, k)
  else if n < 0 then do
    let (sz, d, k) ← deallocuvm img x.pgdir x.sz (uint (x.sz + n)) k
    if sz = 0 then .ok (-1, ⟨x.sz, d⟩, k) else .ok (0, ⟨sz, d⟩, k)
  else .ok (0, x, k)

/-- What a process does, or is done to it. -/
inductive Call (π : Type)
  | fork (p c : π)
  | load (p : π) (a : Nat)
  | store (p : π) (a : Nat) (b : UInt8)
  | growproc (p : π) (n : Int)
  | freevm (p : π)

/-- What comes back. -/
inductive Ret
  | done
  | byte (b : UInt8)
  | int (n : Int)

section Exec

variable {π : Type} [DecidableEq π]

/-- The process table with slot `p` filled. -/
def State.setProc (s : State π) (p : π) (x : Option Proc) (k : Kmem) : State π :=
  { kmem := k, procs := Function.update s.procs p x }

/-- One call. -/
def exec (copyuvm : Copyuvm) (img : Image) (s : State π) :
    Call π → Except Fault (Ret × State π)
  | .fork p c =>
    match s.procs p with
    | none => .error .panic
    | some x => do
      let (d, child, k) ← copyuvm img x.pgdir x.sz s.kmem
      .ok (.done, (s.setProc p (some ⟨x.sz, d⟩) k).setProc c (some ⟨x.sz, child⟩) k)
  | .load p a =>
    match s.procs p with
    | none => .error .panic
    | some x => do
      let b ← load x.pgdir a s.kmem
      .ok (.byte b, s)
  | .store p a b =>
    match s.procs p with
    | none => .error .panic
    | some x => do
      let (d, k) ← store img x.pgdir a b s.kmem
      .ok (.done, s.setProc p (some ⟨x.sz, d⟩) k)
  | .growproc p n =>
    match s.procs p with
    | none => .error .panic
    | some x => do
      let (r, x, k) ← growproc img x n s.kmem
      .ok (.int r, s.setProc p (some x) k)
  | .freevm p =>
    match s.procs p with
    | none => .error .panic
    | some x => do
      let k ← freevm img x.pgdir s.kmem
      .ok (.done, s.setProc p none k)

/-- The calls one after the other, with what each gives back; a panic ends the run. -/
def execAll (copyuvm : Copyuvm) (img : Image) (s : State π) :
    List (Call π) → Except Fault (List Ret × State π)
  | [] => .ok ([], s)
  | call :: calls => do
    let (ret, s) ← exec copyuvm img s call
    let (rets, s) ← execAll copyuvm img s calls
    .ok (ret :: rets, s)

/-- The calls that processes of the sizes `sz` make: at addresses below the size, to free slots and
    to positive sizes. -/
def Allowed (sz : π → Option Nat) : Call π → Prop
  | .fork p c => (sz p).isSome ∧ sz c = none
  | .load p a => ∃ n, sz p = some n ∧ a < n
  | .store p a _ => ∃ n, sz p = some n ∧ a < n
  | .growproc p n => ∃ m, sz p = some m ∧ uint (m + n) ≠ 0
  | .freevm p => (sz p).isSome

def State.sz (s : State π) (p : π) : Option Nat := (s.procs p).map Proc.sz

/-- One process of size `sz`, whose user pages were mapped by `allocuvm`; they hold anything.
    Before, no page was twice on the free list, and the free pages had count 0. -/
def Start (img : Image) (p₀ : π) (sz : Nat) (s : State π) : Prop :=
  ∃ k k₁ k₂ d d₁ mem, Acct img k (fun _ => 0) ∧ setupkvm img k = .ok (d, k₁) ∧
    allocuvm d 0 sz k₁ = .ok (sz, d₁, k₂) ∧
    s = ⟨{ k₂ with mem := mem }, Function.update (fun _ => none) p₀ (some ⟨sz, d₁⟩)⟩

/-- The system with a given `copyuvm`. -/
def system (copyuvm : Copyuvm) (img : Image) (p₀ : π) (sz : Nat) :
    Lts (State π) (Call π × Ret) where
  start := Start img p₀ sz
  step s e s' := Allowed s.sz e.1 ∧ exec copyuvm img s e.1 = .ok (e.2, s')

end Exec

/-! ## What the processes see -/

namespace Spec

/-- A process: its size, and the pages of its memory. -/
structure Proc where
  sz : Nat
  mem : Nat → Page

abbrev State (π : Type) := π → Option Proc

/-- The memory after a store. -/
def storeMem (c : Nat → Page) (a : Nat) (b : UInt8) : Nat → Page :=
  Function.update c (a / pgsize) ((c (a / pgsize)).set a b)

/-- The result and the process after `growproc`: new pages are zero. -/
def growproc (x : Proc) (n : Int) : Int × Proc :=
  if 0 < n then
    if kernbase ≤ uint (x.sz + n) then (-1, x)
    else if uint (x.sz + n) < x.sz then (0, x)
    else (0, ⟨uint (x.sz + n), growMem x.mem x.sz⟩)
  else if n < 0 then
    if x.sz = 0 then (-1, x)
    else if x.sz ≤ uint (x.sz + n) then (0, x)
    else (0, ⟨uint (x.sz + n), x.mem⟩)
  else (0, x)

section Exec

variable {π : Type} [DecidableEq π]

/-- One call: a fork copies the memory, and a store changes one process's memory. -/
def exec (s : State π) : Call π → Ret × State π
  | .fork p c => (.done, Function.update s c (s p))
  | .load p a =>
    match s p with
    | none => (.done, s)
    | some x => (.byte (x.mem (a / pgsize) (a % pgsize)), s)
  | .store p a b =>
    match s p with
    | none => (.done, s)
    | some x => (.done, Function.update s p (some ⟨x.sz, storeMem x.mem a b⟩))
  | .growproc p n =>
    match s p with
    | none => (.done, s)
    | some x => (.int (growproc x n).1, Function.update s p (some (growproc x n).2))
  | .freevm p => (.done, Function.update s p none)

/-- The calls one after the other, on the small model. -/
def execAll (s : State π) : List (Call π) → List Ret × State π
  | [] => ([], s)
  | call :: calls =>
    let (ret, s) := exec s call
    let (rets, s) := execAll s calls
    (ret :: rets, s)

end Exec

end Spec

/-- What the processes of a kernel see. -/
def State.view {π : Type} (s : State π) : Spec.State π := fun p =>
  (s.procs p).map fun x =>
    { sz := x.sz
      mem := fun v => match x.pgdir.entry v with
        | none => fun _ => 0
        | some pte => s.kmem.mem pte.page }

end OsCodes.Xv6
