/-
  Page tables with every error path: the functions of `vm.c` as they return when `kalloc` has no
  page.

  The two kernels have one text for these functions, over their own `kalloc` and `kfree`, except for
  `copyuvm` and for what a page fault does.  A function that can run out of memory returns what it
  had done by then: the directory with the page tables that were made, and whether it was all.
  Addresses are given by page.

  `deallocuvm` and `freevm` need no memory; their loops are `deallocLoop` and `freeLoop` of `Vm`.
  What `mappages` finds in the way is a panic (`remap`), and so is an entry that `copyuvm` does
  not find; the texts are those of the source, so that a law can say which panic is possible.  The
  cost of a call in pages is in `Cost`, what it does to the books in `PagingLaw`, and what it does
  to permissions in `Perms`.
-/
import OsCodes.Xv6.Alloc
import OsCodes.Xv6.Vm

namespace OsCodes.Paging

open Xv6

/-- `PGROUNDUP` of a word, by page. -/
def pgroundup (sz : Nat) : Nat := (sz + pgsize - 1) % 4294967296 / pgsize

section Functions

variable (A : Allocator) (img : Image)

/-! ## Mapping -/

/-- `walkpgdir` with `alloc` 1: whether there is a page table, and the directory. -/
def walkpgdirAlloc (d : PgDir) (v : Nat) (k : Kmem) : Except String (Bool × PgDir × Kmem) :=
  match d.table (pdx v) with
  | some _ => .ok (true, d, k)
  | none => do
    match ← A.kalloc k with
    | (none, k) => .ok (false, d, k)
    | (some pgtab, k) => .ok (true, d.setPde v pgtab, k)

/-- `mappages`, from its entry for page `a` with `n` pages to go. -/
def mappages (d : PgDir) (a : Nat) : Nat → Nat → Perm → Kmem → Except String (Bool × PgDir × Kmem)
  | 0, _, _, k => .ok (true, d, k)
  | n + 1, pa, perm, k => do
    let (found, d, k) ← walkpgdirAlloc A d a k
    if !found then .ok (false, d, k)
    else if (d.pte a).p then .error "remap"
    else mappages (d.setPte a { toPerm := perm, page := pa, p := true }) (a + 1) n (pa + 1) perm k

/-! ## Shrinking and freeing -/

/-- `deallocuvm`. -/
def deallocuvm (d : PgDir) (oldsz newsz : Nat) (k : Kmem) : Except String (Nat × PgDir × Kmem) :=
  if oldsz ≤ newsz then .ok (oldsz, d, k)
  else do
    let (d, k) ← deallocLoop (A.kfree img) "kfree" d (pgroundup newsz) (pages oldsz) k
    .ok (newsz, d, k)

/-- `freevm`. -/
def freevm (d : PgDir) (k : Kmem) : Except String Kmem := do
  let (_, d, k) ← deallocuvm A img d kernbase 0 k
  let k ← freeLoop (A.kfree img) d 0 1024 k
  A.kfree img d.page k

/-! ## The kernel part -/

/-- The loop of `setupkvm` over the entries of `kmap`. -/
def mapKernel (d : PgDir) : List Kmap → Kmem → Except String (Bool × PgDir × Kmem)
  | [], k => .ok (true, d, k)
  | e :: es, k => do
    let (mapped, d, k) ← mappages A d e.virt e.size e.physStart e.perm k
    if mapped then mapKernel d es k
    else .ok (false, d, k)

/-- `setupkvm`; no directory is a 0. -/
def setupkvm (k : Kmem) : Except String (Option PgDir × Kmem) := do
  match ← A.kalloc k with
  | (none, k) => .ok (none, k)
  | (some pgdir, k) =>
    if devspace < kernbase + phystop then .error "PHYSTOP too high"
    else do
      let (mapped, d, k) ← mapKernel A ⟨pgdir, fun _ => none, fun _ => .zero⟩ (kmap img) k
      if mapped then .ok (some d, k)
      else do
        let k ← freevm A img d k
        .ok (none, k)

/-! ## Growing -/

/-- The loop of `allocuvm` at page `a`, with `n` pages to go. -/
def allocLoop (oldsz newsz : Nat) (d : PgDir) (a : Nat) :
    Nat → Kmem → Except String (Nat × PgDir × Kmem)
  | 0, k => .ok (newsz, d, k)
  | n + 1, k => do
    match ← A.kalloc k with
    | (none, k) =>
      let (_, d, k) ← deallocuvm A img d newsz oldsz k
      .ok (0, d, k)
    | (some mem, k) =>
      let k := { k with mem := Function.update k.mem mem fun _ => 0 }
      let (mapped, d, k) ← mappages A d a 1 mem ⟨true, true, false⟩ k
      if mapped then allocLoop oldsz newsz d (a + 1) n k
      else
        let (_, d, k) ← deallocuvm A img d newsz oldsz k
        let k ← A.kfree img mem k
        .ok (0, d, k)

/-- `allocuvm`. -/
def allocuvm (d : PgDir) (oldsz newsz : Nat) (k : Kmem) : Except String (Nat × PgDir × Kmem) :=
  if kernbase ≤ newsz then .ok (0, d, k)
  else if newsz < oldsz then .ok (oldsz, d, k)
  else allocLoop A img oldsz newsz d (pgroundup oldsz) (pages newsz - pgroundup oldsz) k

end Functions

/-- `clearpteu`. -/
def clearpteu (d : PgDir) (v : Nat) : Except String PgDir :=
  match walkpgdir d v with
  | none => .error "clearpteu"
  | some pte => .ok (d.setPte v { pte with u := false })

/-! ## Copying and page faults -/

namespace Cow

/-- The loop of `copyuvm` at page `i`, with `n` pages to go: the page is shared.  The parent's
    directory comes first, then the child's. -/
def copyLoop (img : Image) (pgdir d : PgDir) (i : Nat) :
    Nat → Kmem → Except String (Bool × PgDir × PgDir × Kmem)
  | 0, k => .ok (true, pgdir, d, k)
  | n + 1, k =>
    match walkpgdir pgdir i with
    | none => .error "copyuvm: pte should exist"
    | some pte =>
      if !pte.p then .error "copyuvm: page not present"
      else do
        let pte := pte.share
        let pgdir := pgdir.setPte i pte
        let k ← Counted.incrementRefCount img pte.page k
        let (mapped, d, k) ← mappages counted d i 1 pte.page pte.toPerm k
        if mapped then copyLoop img pgdir d (i + 1) n k
        else
          let k ← Counted.kfree img pte.page k
          .ok (false, pgdir, d, k)

/-- `copyuvm` of xv6-public(1): the child's directory, and the parent's. -/
def copyuvm (img : Image) (pgdir : PgDir) (sz : Nat) (k : Kmem) :
    Except String (Option PgDir × PgDir × Kmem) := do
  match ← setupkvm counted img k with
  | (none, k) => .ok (none, pgdir, k)
  | (some d, k) =>
    let (copied, pgdir, d, k) ← copyLoop img pgdir d 0 (pages sz) k
    if copied then .ok (some d, pgdir, k)
    else
      let k ← freevm counted img d k
      .ok (none, pgdir, k)

/-- `handle_pgflt_helper`, for a fault in page `v`. -/
def handlePgfltHelper (img : Image) (d : PgDir) (v : Nat) (k : Kmem) :
    Except String (PgDir × Kmem) :=
  match walkpgdir d v with
  | none => .error "pagefault handler : pte unmapped"
  | some pte =>
    if !pte.u then .error "pagefault handler"
    else if !pte.p then .error "pagefault handler"
    else if !pte.w && !pte.cow then .error "pagefault handler"
    else do
      match ← Counted.kalloc k with
      | (none, _) => .error "pagefault handler"
      | (some mem, k) =>
        let k := { k with mem := Function.update k.mem mem (k.mem pte.page) }
        let k ← Counted.kfree img pte.page k
        .ok (d.setPte v { page := mem, p := true, w := true, u := pte.u, cow := false }, k)

end Cow

namespace Eager

/-- The loop of `copyuvm` at page `i`, with `n` pages to go: the page is copied. -/
def copyLoop (img : Image) (pgdir d : PgDir) (i : Nat) :
    Nat → Kmem → Except String (Bool × PgDir × Kmem)
  | 0, k => .ok (true, d, k)
  | n + 1, k =>
    match walkpgdir pgdir i with
    | none => .error "copyuvm: pte should exist"
    | some pte =>
      if !pte.p then .error "copyuvm: page not present"
      else do
        match ← Plain.kalloc k with
        | (none, k) => .ok (false, d, k)
        | (some mem, k) =>
          let k := { k with mem := Function.update k.mem mem (k.mem pte.page) }
          let (mapped, d, k) ← mappages plain d i 1 mem pte.toPerm k
          if mapped then copyLoop img pgdir d (i + 1) n k
          else
            let k ← Plain.kfree img mem k
            .ok (false, d, k)

/-- `copyuvm` of xv6-public. -/
def copyuvm (img : Image) (pgdir : PgDir) (sz : Nat) (k : Kmem) :
    Except String (Option PgDir × Kmem) := do
  match ← setupkvm plain img k with
  | (none, k) => .ok (none, k)
  | (some d, k) =>
    let (copied, d, k) ← copyLoop img pgdir d 0 (pages sz) k
    if copied then .ok (some d, k)
    else
      let k ← freevm plain img d k
      .ok (none, k)

/-- `allocate_on_pgflt`, for page `v`. -/
def allocateOnPgflt (img : Image) (d : PgDir) (v : Nat) (k : Kmem) :
    Except String (PgDir × Kmem) := do
  match ← Plain.kalloc k with
  | (none, k) => .ok (d, k)
  | (some mem, k) =>
    let k := { k with mem := Function.update k.mem mem fun _ => 0 }
    let (mapped, d, k) ← mappages plain d v 1 mem ⟨true, true, false⟩ k
    if mapped then .ok (d, k)
    else
      let k ← Plain.kfree img mem k
      .ok (d, k)

end Eager

end OsCodes.Paging
