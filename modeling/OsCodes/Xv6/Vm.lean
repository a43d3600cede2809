/-
  Page tables: the functions of xv6-public(1)/vm.c that fork, grow, shrink and free the memory of a
  process, and `copyuvm` of xv6-public/vm.c beside that of xv6-public(1)/vm.c.

  Addresses are given by page: a virtual page number, or a physical one.  A page directory is the
  page it is in, the pages of its page tables, and the entries in these.  A call for which
  `kalloc` has no page stops; what the callers do about it is left out.

  The functions here stop where `kalloc` has no page, which is enough for what processes see of
  their memory (`ForkLaw`); `Paging` has the same functions with every error path, over either
  allocator.  The two loops that give pages back need no memory, so there is one `deallocLoop` and
  one `freeLoop` for both, over the `kfree` and the panic of their caller.
-/
import OsCodes.Xv6.Kalloc

namespace OsCodes.Xv6

/-! ## Page directories -/

/-- The permissions of an entry: `PTE_W`, `PTE_U` and `PTE_COW_W`. -/
structure Perm where
  w : Bool
  u : Bool
  cow : Bool

/-- An entry of a page table; `p` is `PTE_P`. -/
structure Pte extends Perm where
  page : Nat
  p : Bool

/-- An entry that maps nothing, as `memset` leaves it. -/
def Pte.zero : Pte := { page := 0, p := false, w := false, u := false, cow := false }

/-- `PTE_W` cleared and `PTE_COW_W` set. -/
def Pte.share (pte : Pte) : Pte := { pte with w := false, cow := true }

/-- A page directory and its page tables. -/
structure PgDir where
  page : Nat
  /-- the page table that a present entry of the directory leads to -/
  table : Nat → Option Nat
  /-- the entries of the page tables, by virtual page number -/
  pte : Nat → Pte

/-- `PDX` of a virtual page. -/
def pdx (v : Nat) : Nat := v / 1024

/-- The number of virtual pages. -/
def vpages : Nat := 0x100000

/-- The number of virtual pages below `KERNBASE`. -/
def userPages : Nat := kernbase / pgsize

theorem userPages_eq : userPages = 524288 := rfl

/-- The pages of a process of size `sz`: `PGROUNDUP(sz) / PGSIZE`. -/
def pages (sz : Nat) : Nat := (sz + pgsize - 1) / pgsize

def PgDir.setPte (d : PgDir) (v : Nat) (x : Pte) : PgDir :=
  { d with pte := Function.update d.pte v x }

/-- The directory entry for `v` leads to the page table in page `pgtab`, which is all zero. -/
def PgDir.setPde (d : PgDir) (v pgtab : Nat) : PgDir :=
  { d with table := Function.update d.table (pdx v) (some pgtab),
           pte := fun u => if pdx u = pdx v then .zero else d.pte u }

/-- `walkpgdir` with `alloc` 0. -/
def walkpgdir (d : PgDir) (v : Nat) : Option Pte := (d.table (pdx v)).map fun _ => d.pte v

/-- `walkpgdir` with `alloc` 1. -/
def walkpgdirAlloc (d : PgDir) (v : Nat) (k : Kmem) : Except Fault (PgDir × Kmem) :=
  match d.table (pdx v) with
  | some _ => .ok (d, k)
  | none => do
    let (pgtab, k) ← kalloc k
    .ok (d.setPde v pgtab, k)

/-- `mappages`, from its entry for page `a` with `n` pages to go. -/
def mappages (d : PgDir) (a : Nat) : Nat → Nat → Perm → Kmem → Except Fault (PgDir × Kmem)
  | 0, _, _, k => .ok (d, k)
  | n + 1, pa, perm, k => do
    let (d, k) ← walkpgdirAlloc d a k
    if (d.pte a).p then .error .panic
    else mappages (d.setPte a { toPerm := perm, page := pa, p := true }) (a + 1) n (pa + 1) perm k

/-! ## The kernel part -/

/-- A line of `kmap`. -/
structure Kmap where
  virt : Nat
  physStart : Nat
  physEnd : Nat
  perm : Perm

/-- `kmap`, by pages. -/
def kmap (img : Image) : List Kmap :=
  [⟨kernbase / pgsize, 0, extmem / pgsize, ⟨true, false, false⟩⟩,
   ⟨kernbase / pgsize + extmem / pgsize, extmem / pgsize, img.dataPage, ⟨false, false, false⟩⟩,
   ⟨kernbase / pgsize + img.dataPage, img.dataPage, frames, ⟨true, false, false⟩⟩,
   ⟨devspace / pgsize, devspace / pgsize, 0, ⟨true, false, false⟩⟩]

/-- `phys_end - phys_start`, in pages. -/
def Kmap.size (e : Kmap) : Nat := (e.physEnd + vpages - e.physStart) % vpages

/-- `setupkvm`. -/
def setupkvm (img : Image) (k : Kmem) : Except Fault (PgDir × Kmem) := do
  let (pgdir, k) ← kalloc k
  let d : PgDir := { page := pgdir, table := fun _ => none, pte := fun _ => .zero }
  if devspace < kernbase + phystop then .error .panic
  else (kmap img).foldlM (fun r e => mappages r.1 e.virt e.size e.physStart e.perm r.2) (d, k)

/-! ## Growing and shrinking -/

/-- The loop of `allocuvm` at page `a`, with `n` pages to go. -/
def allocLoop (d : PgDir) (a : Nat) : Nat → Kmem → Except Fault (PgDir × Kmem)
  | 0, k => .ok (d, k)
  | n + 1, k => do
    let (mem, k) ← kalloc k
    let k := { k with mem := Function.update k.mem mem fun _ => 0 }
    let (d, k) ← mappages d a 1 mem ⟨true, true, false⟩ k
    allocLoop d (a + 1) n k

/-- `allocuvm`. -/
def allocuvm (d : PgDir) (oldsz newsz : Nat) (k : Kmem) : Except Fault (Nat × PgDir × Kmem) :=
  if kernbase ≤ newsz then .ok (0, d, k)
  else if newsz < oldsz then .ok (oldsz, d, k)
  else do
    let (d, k) ← allocLoop d (pages oldsz) (pages newsz - pages oldsz) k
    .ok (newsz, d, k)

section Loops

variable {ε : Type} (kfree : Nat → Kmem → Except ε Kmem)

/-- The loop of `deallocuvm` from page `a` up to `last`, over a `kfree` and the error of its panic.
    Where a page table is missing it goes on at the next one. -/
def deallocLoop (panic : ε) (d : PgDir) (a last : Nat) (k : Kmem) : Except ε (PgDir × Kmem) :=
  if a < last then
    match walkpgdir d a with
    | none => deallocLoop panic d ((pdx a + 1) * 1024) last k
    | some pte =>
      if pte.p then
        if pte.page = 0 then .error panic
        else do
          let k ← kfree pte.page k
          deallocLoop panic (d.setPte a .zero) (a + 1) last k
      else deallocLoop panic d (a + 1) last k
  else .ok (d, k)
termination_by last - a
decreasing_by
  · have hlt : a < (a / 1024 + 1) * 1024 := by omega
    simp only [pdx]
    omega
  · omega
  · omega

/-- The loop of `freevm` at directory entry `i`, with `n` entries to go. -/
def freeLoop (d : PgDir) (i : Nat) : Nat → Kmem → Except ε Kmem
  | 0, k => .ok k
  | n + 1, k =>
    match d.table i with
    | none => freeLoop d (i + 1) n k
    | some pgtab => do
      let k ← kfree pgtab k
      freeLoop d (i + 1) n k

end Loops

/-- `deallocuvm`. -/
def deallocuvm (img : Image) (d : PgDir) (oldsz newsz : Nat) (k : Kmem) :
    Except Fault (Nat × PgDir × Kmem) :=
  if oldsz ≤ newsz then .ok (oldsz, d, k)
  else do
    let (d, k) ← deallocLoop (kfree img) .panic d (pages newsz) (pages oldsz) k
    .ok (newsz, d, k)

/-- `freevm`. -/
def freevm (img : Image) (d : PgDir) (k : Kmem) : Except Fault Kmem := do
  let (_, d, k) ← deallocuvm img d kernbase 0 k
  let k ← freeLoop (kfree img) d 0 1024 k
  kfree img d.page k

/-! ## Copying -/

namespace Cow

/-- The loop of `copyuvm` at page `i`, with `n` pages to go: the page is shared. -/
def copyLoop (img : Image) (pgdir d : PgDir) (i : Nat) :
    Nat → Kmem → Except Fault (PgDir × PgDir × Kmem)
  | 0, k => .ok (pgdir, d, k)
  | n + 1, k =>
    match walkpgdir pgdir i with
    | none => .error .panic
    | some pte =>
      if !pte.p then .error .panic
      else do
        let pte := pte.share
        let pgdir := pgdir.setPte i pte
        let k ← incrementRefCount img pte.page k
        let (d, k) ← mappages d i 1 pte.page pte.toPerm k
        copyLoop img pgdir d (i + 1) n k

/-- `copyuvm` of xv6-public(1): the parent's page directory, the child's, and the memory. -/
def copyuvm (img : Image) (pgdir : PgDir) (sz : Nat) (k : Kmem) :
    Except Fault (PgDir × PgDir × Kmem) := do
  let (d, k) ← setupkvm img k
  copyLoop img pgdir d 0 (pages sz) k

end Cow

namespace Eager

/-- The loop of `copyuvm` at page `i`, with `n` pages to go: the page is copied. -/
def copyLoop (pgdir d : PgDir) (i : Nat) : Nat → Kmem → Except Fault (PgDir × PgDir × Kmem)
  | 0, k => .ok (pgdir, d, k)
  | n + 1, k =>
    match walkpgdir pgdir i with
    | none => .error .panic
    | some pte =>
      if !pte.p then .error .panic
      else do
        let (mem, k) ← kalloc k
        let k := { k with mem := Function.update k.mem mem (k.mem pte.page) }
        let (d, k) ← mappages d i 1 mem pte.toPerm k
        copyLoop pgdir d (i + 1) n k

/-- `copyuvm` of xv6-public. -/
def copyuvm (img : Image) (pgdir : PgDir) (sz : Nat) (k : Kmem) :
    Except Fault (PgDir × PgDir × Kmem) := do
  let (d, k) ← setupkvm img k
  copyLoop pgdir d 0 (pages sz) k

end Eager

/-- `handle_pgflt_helper`, for a fault in page `v`. -/
def handlePgfltHelper (img : Image) (d : PgDir) (v : Nat) (k : Kmem) :
    Except Fault (PgDir × Kmem) :=
  match walkpgdir d v with
  | none => .error .panic
  | some pte =>
    if !pte.u then .error .panic
    else if !pte.p then .error .panic
    else if !pte.w && !pte.cow then .error .panic
    else do
      let (mem, k) ← kalloc k
      let k := { k with mem := Function.update k.mem mem (k.mem pte.page) }
      let k ← kfree img pte.page k
      .ok (d.setPte v { page := mem, p := true, w := true, u := pte.u, cow := false }, k)

end OsCodes.Xv6
