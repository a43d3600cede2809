/-
  `fork` with every error path, in both kernels.

  Both have one text for `allocproc` and `fork`, over their own `kalloc`, `kfree` and `copyuvm`.  A
  fork that has no page for the kernel stack or for a part of the copy puts back what it has taken
  and returns -1.

  The source frees the kernel stack and sets the slot to UNUSED where `copyuvm` fails, and returns
  at once where there is no slot or no stack.  Each way has its lemma (`fork_no_slot`,
  `fork_no_stack`, `fork_no_copy`, `fork_child`, `fork_panics`), so that the modules behind this
  one never unfold `fork`.  A slot keeps the pid that `allocproc` gave it when the fork fails, as
  in the source.
-/
import OsCodes.Xv6.Counts
import OsCodes.Xv6.Ptable

namespace OsCodes.Paging

open Xv6
open Ptable (Slot ProcState)

/-! ## The process table -/

/-- The parts of `struct proc` that `allocproc` and `fork` set.  `none` is a null pointer. -/
structure Task where
  state : ProcState
  pid : Int
  kstack : Option Nat
  sz : Nat
  parent : Option Slot

/-- The memory, where the live directories are those of the processes, and the process table. -/
structure Kernel where
  mem : Counts.State Slot
  tasks : Slot → Task
  nextpid : Int

def Kernel.setTask (x : Kernel) (p : Slot) (t : Task) : Kernel :=
  { x with tasks := Function.update x.tasks p t }

/-- The loop of `allocproc`: the first slot that is `UNUSED`. -/
def unusedSlot (x : Kernel) : Option Slot := Ptable.find fun p => (x.tasks p).state = .unused

/-- `allocproc`, with the kernel stack that it found. -/
def allocproc (A : Allocator) (x : Kernel) : Except String (Option (Slot × Nat) × Kernel) :=
  match unusedSlot x with
  | none => .ok (none, x)
  | some p => do
    let t := { x.tasks p with state := .embryo, pid := x.nextpid }
    let x := { x with nextpid := x.nextpid + 1 }
    match ← A.kalloc x.mem.kmem with
    | (none, k) =>
      let x := { x with mem := { x.mem with kmem := k } }
      .ok (none, x.setTask p { t with kstack := none, state := .unused })
    | (some kstack, k) =>
      let x := { x with mem := { x.mem with kmem := k, priv := insert kstack x.mem.priv } }
      .ok (some (p, kstack), x.setTask p { t with kstack := some kstack })

/-- `copyuvm` as `fork` calls it: the child's directory comes first, then the parent's. -/
abbrev Copyuvm := Image → PgDir → Nat → Kmem → Except String (Option PgDir × PgDir × Kmem)

/-- `fork`, by the process in slot `curproc`. -/
def forkWith (A : Allocator) (copyuvm : Copyuvm) (img : Image) (curproc : Slot) (x : Kernel) :
    Except String (Int × Kernel) := do
  match ← allocproc A x with
  | (none, x) => .ok (-1, x)
  | (some (np, kstack), x) =>
    let pgdir ← x.mem.dir curproc
    let (child, pgdir, k) ← copyuvm img pgdir (x.tasks curproc).sz x.mem.kmem
    let x := { x with mem := x.mem.setDir curproc (some pgdir) k }
    match child with
    | none =>
      let k ← A.kfree img kstack x.mem.kmem
      let x := { x with mem := { x.mem with kmem := k, priv := x.mem.priv.erase kstack } }
      .ok (-1, x.setTask np { x.tasks np with kstack := none, state := .unused })
    | some d =>
      let x := { x with mem := x.mem.setDir np (some d) x.mem.kmem }
      let t := { x.tasks np with sz := (x.tasks curproc).sz, parent := some curproc }
      .ok (t.pid, x.setTask np { t with state := .runnable })

/-- `fork` of xv6-public(1). -/
def Cow.fork : Image → Slot → Kernel → Except String (Int × Kernel) := forkWith counted Cow.copyuvm

/-- `fork` of xv6-public, where the parent's directory stays as it is. -/
def Eager.fork : Image → Slot → Kernel → Except String (Int × Kernel) :=
  forkWith plain fun img pgdir sz k => do
    let (child, k) ← Eager.copyuvm img pgdir sz k
    .ok (child, pgdir, k)

/-- `fork` of xv6-public calls `copyuvm` and gives the parent its directory back. -/
theorem Eager.fork_eq : ∃ copyuvm : Copyuvm, Eager.fork = forkWith plain copyuvm ∧
    ∀ {img pgdir sz k r}, Eager.copyuvm img pgdir sz k = r →
      copyuvm img pgdir sz k = r.map fun r => (r.1, pgdir, r.2) := by
  refine ⟨_, rfl, ?_⟩
  rintro img pgdir sz k r rfl
  show (Eager.copyuvm img pgdir sz k >>= _) = _
  cases Eager.copyuvm img pgdir sz k with
  | error e => rfl
  | ok r => rfl

/-! ## What it does -/

section Fork

variable {A : Allocator} {copyuvm : Copyuvm} {img : Image} {x x₁ : Kernel} {curproc np : Slot}
  {kstack : Nat} {d d' d₂ : PgDir} {k k₂ k₃ : Kmem}

/-- `allocproc` without memory for a kernel stack. -/
theorem allocproc_none (hslot : unusedSlot x = some np)
    (hk : A.kalloc x.mem.kmem = .ok (none, k)) :
    ∃ x', allocproc A x = .ok (none, x') ∧ x'.mem = { x.mem with kmem := k } ∧
      (x'.tasks np).state = .unused ∧ (∀ p, (x'.tasks p).sz = (x.tasks p).sz) ∧
      ∀ p, p ≠ np → x'.tasks p = x.tasks p := by
  refine ⟨_, by rw [allocproc, hslot]; simp only [hk]; rfl, rfl, ?_, fun p => ?_, fun p hp => ?_⟩
  · show (Function.update x.tasks np _ np).state = _
    rw [Function.update_self]
  · show (Function.update x.tasks np _ p).sz = _
    by_cases hp : p = np
    · rw [hp, Function.update_self]
    · rw [Function.update_of_ne hp]
  · exact Function.update_of_ne hp _ _

/-- `allocproc` with a kernel stack. -/
theorem allocproc_some (hslot : unusedSlot x = some np)
    (hk : A.kalloc x.mem.kmem = .ok (some kstack, k)) :
    ∃ x', allocproc A x = .ok (some (np, kstack), x') ∧
      x'.mem = { x.mem with kmem := k, priv := insert kstack x.mem.priv } ∧
      (x'.tasks np).pid = x.nextpid ∧ (∀ p, (x'.tasks p).sz = (x.tasks p).sz) ∧
      ∀ p, p ≠ np → x'.tasks p = x.tasks p := by
  refine ⟨_, by rw [allocproc, hslot]; simp only [hk]; rfl, rfl, ?_, fun p => ?_, fun p hp => ?_⟩
  · show (Function.update x.tasks np _ np).pid = _
    rw [Function.update_self]
  · show (Function.update x.tasks np _ p).sz = _
    by_cases hp : p = np
    · rw [hp, Function.update_self]
    · rw [Function.update_of_ne hp]
  · exact Function.update_of_ne hp _ _

/-- What `fork` hands to `copyuvm` after `allocproc`. -/
theorem copyuvm_args {r : Except String (Option PgDir × PgDir × Kmem)}
    (hmem : x₁.mem = { x.mem with kmem := k, priv := insert kstack x.mem.priv })
    (hsz : ∀ p, (x₁.tasks p).sz = (x.tasks p).sz) (hd : x.mem.dirs curproc = some d)
    (hcopy : copyuvm img d (x.tasks curproc).sz k = r) :
    x₁.mem.dir curproc = .ok d ∧ copyuvm img d (x₁.tasks curproc).sz x₁.mem.kmem = r := by
  rw [hsz, hmem]
  exact ⟨Counts.dir_eq hd, hcopy⟩

/-- What a fork that fails leaves in the process table. -/
structure Failed (x : Kernel) (np : Slot) (x' : Kernel) : Prop where
  unused : (x'.tasks np).state = .unused
  sz_eq : ∀ p, (x'.tasks p).sz = (x.tasks p).sz
  others : ∀ p, p ≠ np → x'.tasks p = x.tasks p

/-- `fork` without a slot gives -1 and leaves all as it was. -/
theorem fork_no_slot (hslot : unusedSlot x = none) :
    forkWith A copyuvm img curproc x = .ok (-1, x) := by
  rw [forkWith, allocproc, hslot]
  rfl

/-- `fork` without a kernel stack. -/
theorem fork_no_stack (hslot : unusedSlot x = some np)
    (hk : A.kalloc x.mem.kmem = .ok (none, k)) :
    ∃ x', forkWith A copyuvm img curproc x = .ok (-1, x') ∧ x'.mem = { x.mem with kmem := k } ∧
      Failed x np x' := by
  obtain ⟨x₁, halloc, hmem, hunused, hsz, htasks⟩ := allocproc_none hslot hk
  refine ⟨x₁, ?_, hmem, hunused, hsz, htasks⟩
  rw [forkWith, halloc]
  rfl

/-- `fork` when `copyuvm` gives no directory: it gives the kernel stack back. -/
theorem fork_no_copy (hslot : unusedSlot x = some np)
    (hk : A.kalloc x.mem.kmem = .ok (some kstack, k)) (hfresh : kstack ∉ x.mem.priv)
    (hd : x.mem.dirs curproc = some d)
    (hcopy : copyuvm img d (x.tasks curproc).sz k = .ok (none, d', k₂))
    (hkfree : A.kfree img kstack k₂ = .ok k₃) :
    ∃ x', forkWith A copyuvm img curproc x = .ok (-1, x') ∧
      x'.mem = x.mem.setDir curproc (some d') k₃ ∧ Failed x np x' := by
  obtain ⟨x₁, halloc, hmem, -, hsz, htasks⟩ := allocproc_some hslot hk
  obtain ⟨hdir, hcopy⟩ := copyuvm_args hmem hsz hd hcopy
  refine ⟨{ x₁ with
    mem := { x₁.mem.setDir curproc (some d') k₂ with
      kmem := k₃, priv := x₁.mem.priv.erase kstack }
    tasks := Function.update x₁.tasks np
      { x₁.tasks np with kstack := none, state := .unused } }, ?_, ?_, ?_, fun p => ?_,
    fun p hp => ?_⟩
  · simp only [forkWith, halloc, hdir, hcopy, bind, Except.bind]
    show (A.kfree img kstack k₂).bind _ = _
    rw [hkfree]
    rfl
  · show Counts.State.mk k₃ (Function.update x₁.mem.dirs curproc _) (x₁.mem.priv.erase kstack) = _
    rw [hmem]
    show Counts.State.mk k₃ _ ((insert kstack x.mem.priv).erase kstack) = _
    rw [Finset.erase_insert hfresh]
    rfl
  · show (Function.update x₁.tasks np _ np).state = _
    rw [Function.update_self]
  · show (Function.update x₁.tasks np _ p).sz = _
    rw [← hsz p]
    by_cases hp : p = np
    · rw [hp, Function.update_self]
    · rw [Function.update_of_ne hp]
  · show Function.update x₁.tasks np _ p = _
    rw [Function.update_of_ne hp, htasks p hp]

/-- `fork` when `copyuvm` gives the child's directory. -/
theorem fork_child (hslot : unusedSlot x = some np)
    (hk : A.kalloc x.mem.kmem = .ok (some kstack, k)) (hd : x.mem.dirs curproc = some d)
    (hcopy : copyuvm img d (x.tasks curproc).sz k = .ok (some d₂, d', k₂)) :
    ∃ x', forkWith A copyuvm img curproc x = .ok (x.nextpid, x') ∧
      x'.mem = (Counts.State.setDir { x.mem with kmem := k₂, priv := insert kstack x.mem.priv }
        curproc (some d') k₂).setDir np (some d₂) k₂ ∧
      ((x'.tasks np).sz = (x.tasks curproc).sz ∧ (x'.tasks np).state = .runnable) ∧
      ∀ p, p ≠ np → x'.tasks p = x.tasks p := by
  obtain ⟨x₁, halloc, hmem, hpid, hsz, htasks⟩ := allocproc_some hslot hk
  obtain ⟨hdir, hcopy⟩ := copyuvm_args hmem hsz hd hcopy
  refine ⟨{ x₁ with
    mem := (x₁.mem.setDir curproc (some d') k₂).setDir np (some d₂) k₂
    tasks := Function.update x₁.tasks np { x₁.tasks np with
      sz := (x₁.tasks curproc).sz, parent := some curproc, state := .runnable } }, ?_, ?_, ?_,
    fun p hp => ?_⟩
  · simp only [forkWith, halloc, hdir, hcopy, bind, Except.bind]
    rw [← hpid]
    rfl
  · show (x₁.mem.setDir curproc (some d') k₂).setDir np (some d₂) k₂ = _
    rw [hmem]
    rfl
  · show (Function.update x₁.tasks np _ np).sz = _ ∧ (Function.update x₁.tasks np _ np).state = _
    rw [Function.update_self]
    exact ⟨hsz curproc, rfl⟩
  · show Function.update x₁.tasks np _ p = _
    rw [Function.update_of_ne hp, htasks p hp]

/-- `fork` when `copyuvm` panics. -/
theorem fork_panics {e : String} (hslot : unusedSlot x = some np)
    (hk : A.kalloc x.mem.kmem = .ok (some kstack, k)) (hd : x.mem.dirs curproc = some d)
    (hcopy : copyuvm img d (x.tasks curproc).sz k = .error e) :
    forkWith A copyuvm img curproc x = .error e := by
  obtain ⟨x₁, halloc, hmem, -, hsz, -⟩ := allocproc_some hslot hk
  obtain ⟨hdir, hcopy⟩ := copyuvm_args hmem hsz hd hcopy
  simp only [forkWith, halloc, hdir, hcopy, bind, Except.bind]

end Fork

end OsCodes.Paging
