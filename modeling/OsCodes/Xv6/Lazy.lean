/-
  The memory of processes in xv6-public, where `mmap` only moves the size and a page fault maps the
  page.

  The calls of processes and the kernel's own are one system: making the first process, `fork`,
  `exec`, `sbrk`, `mmap`, accesses from user mode, `exit`, and what `wait` frees.  The argument of
  a system call is read from the user stack; a read that faults is an access of its own, before.

  What is kept because a law turns on it:

  1. `sys_mmap` adds to the size without a look at `KERNBASE`, and the sum is one of `uint`s;
  2. `trap` maps a page for every fault that does not start above the size, the page at the size
     itself included, and `allocate_on_pgflt` goes on when it has no memory;
  3. `deallocuvm` in a `growproc` to a smaller size passes over pages that were never mapped;
  4. `copyuvm` panics at a page below the size that is absent.

  A call is made by a process that may run, so a process whose address space is gone makes none.
  The texts that `cprintf` prints are left out.
-/
import OsCodes.Xv6.Fork
import OsCodes.Xv6.Proc

namespace OsCodes.Paging.Lazy

open Xv6 (Image Kmem Page PgDir kernbase pgsize uint userPte)
open Ptable (Slot)

/-! ## Arguments of system calls -/

/-- The bytes of a process as ints: what `*(int*)addr` is. -/
abbrev Words := Nat → BitVec 32

/-- `fetchint`; nothing is its -1. -/
def fetchint (sz : Nat) (mem : Words) (addr : Nat) : Option (BitVec 32) :=
  if sz ≤ addr ∨ sz < uint (addr + 4) then none else some (mem addr)

/-- `argint`, for the stack pointer `esp`. -/
def argint (sz : Nat) (mem : Words) (esp n : Nat) : Option (BitVec 32) :=
  fetchint sz mem (uint (esp + 4 + 4 * n))

/-- `argptr`: the pointer and the end of what it points to are below the size. -/
def argptr (sz : Nat) (mem : Words) (esp n : Nat) (size : BitVec 32) : Option Nat :=
  match argint sz mem esp n with
  | none => none
  | some i =>
    if size.toInt < 0 ∨ sz ≤ i.toNat ∨ sz < uint (i.toNat + size.toInt) then none
    else some i.toNat

/-! ## Changing the size -/

/-- A process with another size and directory. -/
def resize (x : Kernel) (p : Slot) (sz : Nat) (d : PgDir) (k : Kmem) : Kernel :=
  { x with
    mem := x.mem.setDir p (some d) k
    tasks := Function.update x.tasks p { x.tasks p with sz := sz } }

/-- `growproc`: what it returns, the size, the directory and the memory. -/
def growproc (img : Image) (d : PgDir) (sz : Nat) (n : Int) (k : Kmem) :
    Except String (Int × Nat × PgDir × Kmem) :=
  if 0 < n then do
    let (newsz, d, k) ← allocuvm plain img d sz (uint (sz + n)) k
    if newsz = 0 then .ok (-1, sz, d, k) else .ok (0, newsz, d, k)
  else if n < 0 then do
    let (newsz, d, k) ← deallocuvm plain img d sz (uint (sz + n)) k
    if newsz = 0 then .ok (-1, sz, d, k) else .ok (0, newsz, d, k)
  else .ok (0, sz, d, k)

/-- `sys_sbrk`: the old size, or -1. -/
def sysSbrk (img : Image) (p : Slot) (esp : Nat) (mem : Words) (x : Kernel) :
    Except String (Int × Kernel) :=
  match argint (x.tasks p).sz mem esp 0 with
  | none => .ok (-1, x)
  | some n => do
    let addr := (x.tasks p).sz
    let d ← x.mem.dir p
    let (r, sz, d, k) ← growproc img d addr n.toInt x.mem.kmem
    .ok (if r < 0 then -1 else toInt addr, resize x p sz d k)

/-- `sys_mmap`: what it returns, and the size. -/
def sysMmap (sz esp : Nat) (mem : Words) : Int × Nat :=
  match argint sz mem esp 0 with
  | none => (-1, sz)
  | some size =>
    if size.toInt ≤ 0 ∨ size.toInt % pgsize ≠ 0 then (0, sz)
    else (toInt sz, uint (sz + size.toInt))

/-! ## Page faults -/

/-- The page that `trap` has mapped for a fault at `addr`; without one it calls `exit`. -/
def pgfltPage (sz addr : Nat) : Option Nat :=
  let pgAddr := addr / pgsize * pgsize
  if sz < pgAddr then none else some (pgAddr / pgsize)

/-- `exit`: the process is a zombie, and its memory stays until a `wait` frees it. -/
def exit (p : Slot) (x : Kernel) : Except String (Int × Kernel) :=
  if p = Ptable.initproc then .error "init exiting"
  else .ok (0, x.setTask p { x.tasks p with state := .zombie })

/-- An access to a byte from user mode. -/
def access (img : Image) (p : Slot) (addr : Nat) (write : Bool) (x : Kernel) :
    Except String (Int × Kernel) := do
  let d ← x.mem.dir p
  match userPte d (addr / pgsize) write with
  | .ok _ => .ok (0, x)
  | .error _ =>
    match pgfltPage (x.tasks p).sz addr with
    | none => exit p x
    | some v =>
      let (d, k) ← Eager.allocateOnPgflt img d v x.mem.kmem
      .ok (0, { x with mem := x.mem.setDir p (some d) k })

/-! ## New programs -/

/-- What `exec` looks at of a segment to load; `loads` is whether `loaduvm` can read it. -/
structure ProgHdr where
  vaddr : Nat
  filesz : Nat
  memsz : Nat
  loads : Bool

/-- The loop of `exec` over the segments to load.  No size is `goto bad`. -/
def loadLoop (img : Image) (d : PgDir) (sz : Nat) :
    List ProgHdr → Kmem → Except String (Option Nat × PgDir × Kmem)
  | [], k => .ok (some sz, d, k)
  | ph :: phs, k =>
    if ph.memsz < ph.filesz then .ok (none, d, k)
    else if uint (ph.vaddr + ph.memsz) < ph.vaddr then .ok (none, d, k)
    else do
      let (sz, d, k) ← allocuvm plain img d sz (uint (ph.vaddr + ph.memsz)) k
      if sz = 0 then .ok (none, d, k)
      else if ph.vaddr % pgsize ≠ 0 ∨ ph.loads = false then .ok (none, d, k)
      else loadLoop img d sz phs k

/-- The new memory that `exec` makes: its size and directory.  `args` is whether the arguments fit
    on the stack. -/
def execImage (img : Image) (phs : List ProgHdr) (args : Bool) (k : Kmem) :
    Except String (Option (Nat × PgDir) × Kmem) := do
  match ← setupkvm plain img k with
  | (none, k) => .ok (none, k)
  | (some d, k) =>
    let (loaded, d, k) ← loadLoop img d 0 phs k
    match loaded with
    | none => do
      let k ← freevm plain img d k
      .ok (none, k)
    | some sz =>
      let sz := pgroundup sz * pgsize
      let (sz, d, k) ← allocuvm plain img d sz (uint (sz + 2 * pgsize)) k
      if sz = 0 then
        let k ← freevm plain img d k
        .ok (none, k)
      else
        let d ← clearpteu d ((sz - 2 * pgsize) / pgsize)
        if args then .ok (some (sz, d), k)
        else
          let k ← freevm plain img d k
          .ok (none, k)

/-- `exec`. -/
def exec (img : Image) (p : Slot) (phs : List ProgHdr) (args : Bool) (x : Kernel) :
    Except String (Int × Kernel) := do
  let oldpgdir ← x.mem.dir p
  let (new, k) ← execImage img phs args x.mem.kmem
  match new with
  | none => .ok (-1, { x with mem := { x.mem with kmem := k } })
  | some (sz, pgdir) =>
    let k ← freevm plain img oldpgdir k
    .ok (0, resize x p sz pgdir k)

/-- `inituvm`, and the page it could not map. -/
def inituvm (d : PgDir) (k : Kmem) : Except String (Option Nat × PgDir × Kmem) := do
  match ← Plain.kalloc k with
  | (none, _) => .error "trap"
  | (some mem, k) =>
    let k := { k with mem := Function.update k.mem mem fun _ => 0 }
    let (mapped, d, k) ← mappages plain d 0 1 mem ⟨true, true, false⟩ k
    .ok (if mapped then none else some mem, d, k)

/-- `userinit`.  A page that could not be mapped is lost to the kernel. -/
def userinit (img : Image) (x : Kernel) : Except String Kernel := do
  match ← allocproc plain x with
  | (none, _) => .error "trap"
  | (some (p, _), x) =>
    match ← setupkvm plain img x.mem.kmem with
    | (none, _) => .error "userinit: out of memory?"
    | (some d, k) =>
      let (lost, d, k) ← inituvm d k
      let mem := x.mem.setDir p (some d) k
      let mem := { mem with priv := lost.elim mem.priv (insert · mem.priv) }
      let t := { x.tasks p with sz := pgsize, state := .runnable }
      .ok (Kernel.setTask { x with mem := mem } p t)

/-! ## The system -/

/-- What a process or the kernel does next, with the arguments that it finds; `esp` and `mem` are
    the stack pointer and the memory that the arguments of a system call are read from. -/
inductive Call
  | fork (p : Slot)
  | exec (p : Slot) (phs : List ProgHdr) (args : Bool)
  | sbrk (p : Slot) (esp : Nat) (mem : Words)
  | mmap (p : Slot) (esp : Nat) (mem : Words)
  | access (p : Slot) (addr : Nat) (write : Bool)
  | exit (p : Slot)
  /-- `wait` frees the memory of a zombie -/
  | freevm (p : Slot)
  /-- pages for pipes; the kernel stack of a zombie -/
  | kalloc
  | kfree (page : Nat)
  /-- something is written, by a process or the kernel -/
  | write (mem : Nat → Page)

/-- One call in xv6-public, with the value that it returns. -/
def run (img : Image) (x : Kernel) : Call → Except String (Int × Kernel)
  | .fork p => Eager.fork img p x
  | .exec p phs args => exec img p phs args x
  | .sbrk p esp mem => sysSbrk img p esp mem x
  | .mmap p esp mem =>
    let (r, sz) := sysMmap (x.tasks p).sz esp mem
    .ok (r, x.setTask p { x.tasks p with sz := sz })
  | .access p addr write => access img p addr write x
  | .exit p => exit p x
  | .freevm p => do
    let d ← x.mem.dir p
    let k ← freevm plain img d x.mem.kmem
    .ok (0, Kernel.setTask { x with mem := x.mem.setDir p none k } p
      { x.tasks p with state := .unused })
  | .kalloc => do
    match ← Plain.kalloc x.mem.kmem with
    | (none, k) => .ok (0, { x with mem := { x.mem with kmem := k } })
    | (some page, k) =>
      .ok (0, { x with mem := { x.mem with kmem := k, priv := insert page x.mem.priv } })
  | .kfree page => do
    let k ← Plain.kfree img page x.mem.kmem
    .ok (0, { x with mem := { x.mem with kmem := k, priv := x.mem.priv.erase page } })
  | .write mem => .ok (0, { x with mem := { x.mem with kmem := { x.mem.kmem with mem := mem } } })

/-- Who calls: a process that may run; a parent that found a zombie; the kernel for its own
    pages. -/
def Allowed (x : Kernel) : Call → Prop
  | .fork p | .exec p _ _ | .sbrk p _ _ | .mmap p _ _ | .access p _ _ | .exit p =>
    (x.tasks p).state = .runnable
  | .freevm p => (x.tasks p).state = .zombie
  | .kfree page => page ∈ x.mem.priv
  | .kalloc | .write _ => True

/-- The kernel before the first process. -/
def boot (k₀ : Kmem) : Kernel where
  mem := ⟨k₀, fun _ => none, ∅⟩
  tasks _ := ⟨.unused, 0, none, 0, none⟩
  nextpid := 1

/-- xv6-public from the return of `userinit` on; a call comes with what it returns. -/
def system (img : Image) (k₀ : Kmem) : Lts Kernel (Call × Int) where
  start x := userinit img (boot k₀) = .ok x
  step x e x' := Allowed x e.1 ∧ run img x e.1 = .ok (e.2, x')

end OsCodes.Paging.Lazy
