/-
  The allocator of up to four pages: `malloc-code/ealloc.h` and `ealloc.c`.

  `PAGESIZE` is 4096, `MINALLOC` 256, `NUM_ELE` 16 and `MAX_PAGES` 4.  The tables of 4 rows and
  16 columns are flat: `bitmap[j][i]` is entry `16 * j + i`, below 64.  The search of `alloc`
  reads `bitmap[j][i+x]` with no bound on `i+x`: what a column outside its row holds is part of
  the `World` that a call meets, `some b` where the read finds `b` and `none` where it must not
  happen.  A call that would write outside a table has no result.

  The functions follow the source line by line where its order matters: `alloc` raises
  `curr_pages_used` and fills in `ptr` before it looks at the result of `mmap`, it maps a page
  before it knows that the request fits one, and behind its two loops there is no `return`.
  `dealloc` looks up the page by its address range, finds the column from the distance, and clears
  eight bytes for each chunk of 256.  Each of these has a module that says exactly when it
  matters: `EallocFail`, `EallocExhaust` and `EallocZero`; the reads behind a row are in
  `EallocApart` and `EallocGrowth`.
-/
import OsCodes.Malloc.Live

namespace OsCodes.Malloc.Ealloc

/-- The globals of `ealloc.c`, and the memory. -/
structure PagedHeap where
  currPagesUsed : Nat
  /-- `true` for a free chunk -/
  bitmap : Nat → Bool
  howMany : Nat → Int
  ptr : Nat → Int
  mem : Int → UInt8

/-- What a request meets: the columns outside a row, and the address that `mmap` returns, -1 for
    `MAP_FAILED`. -/
structure World where
  past : Nat → Nat → Option Bool
  mmap : Int

/-- No page is mapped yet: this is left to the requests. -/
def initAlloc (s : PagedHeap) : PagedHeap :=
  { s with
    bitmap := fun _ => true
    howMany := fun _ => 0
    ptr := fun _ => 0
    currPagesUsed := 0 }

/-- `bitmap[j][c]`. -/
def probe (past : Nat → Nat → Option Bool) (bitmap : Nat → Bool) (j c : Nat) : Option Bool :=
  if c < 16 then some (bitmap (16 * j + c)) else past j c

/-- Both loops over the columns: a block in row `j`, if the search finds one. -/
def scanRow (w : World) (reqMem : Int) (s : PagedHeap) (j : Nat) :
    Option (Option (Pointer × PagedHeap)) := do
  let found ← firstFit (probe w.past s.bitmap j) reqMem 16 0
  match found with
  | none => some none
  | some i =>
    let c := 16 * j + i
    if 64 < c + reqMem.toNat then none
    else some (some (.at (s.ptr j + i * 256), { s with
      howMany := Function.update s.howMany c (s.howMany c + reqMem)
      bitmap := markDown s.bitmap c reqMem.toNat }))

/-- The loop over the mapped rows, `n` of them from `j` on. -/
def scanMapped (w : World) (reqMem : Int) (s : PagedHeap) : Nat → Nat →
    Option (Option (Pointer × PagedHeap))
  | 0, _ => some none
  | n + 1, j => do
    let found ← scanRow w reqMem s j
    match found with
    | some r => some (some r)
    | none => scanMapped w reqMem s n (j + 1)

/-- `ptr[j] = mmap(..); curr_pages_used++;` -/
def mapPage (w : World) (s : PagedHeap) : PagedHeap :=
  { s with
    ptr := Function.update s.ptr s.currPagesUsed w.mmap
    currPagesUsed := s.currPagesUsed + 1 }

/-- The mapped rows are searched, then a page is mapped and its row searched.  The page counts as
    used even where `mmap` fails, as the counter goes up first. -/
def alloc (w : World) (size : Int) (s : PagedHeap) : Option (Pointer × PagedHeap) :=
  if size.tmod 256 ≠ 0 then some (.null, s)
  else do
    let reqMem := size.tdiv 256
    let found ← scanMapped w reqMem s s.currPagesUsed 0
    match found with
    | some r => some r
    | none =>
      if s.currPagesUsed < 4 then
        let t := mapPage w s
        if w.mmap = -1 then some (.null, t)
        else do
          let t := { t with mem := memset t.mem w.mmap 4096 }
          let found ← scanRow w reqMem t s.currPagesUsed
          match found with
          | some r => some r
          | none => some (.null, t)
      -- no page is left, and no `return` behind the loop
      else some (.undefined, s)

/-- The page that `dealloc` looks up, 0 if none has the address. -/
def pageOf (pos : Int) (s : PagedHeap) : Nat :=
  ((List.range s.currPagesUsed).find? fun i =>
    decide (0 ≤ pos - s.ptr i ∧ pos - s.ptr i < 4096)).getD 0

/-- The count at the chunk of `pos` says how much is freed.  It is cleared at eight bytes a chunk,
    as in `alloc.c`, where a chunk here has 256. -/
def dealloc (pos : Int) (s : PagedHeap) : Option PagedHeap :=
  let p := pageOf pos s
  let chunk := 16 * p + (pos - s.ptr p).tdiv 256
  if 0 ≤ chunk ∧ chunk < 64 then
    let c := chunk.toNat
    let x := s.howMany c
    if 64 < c + x.toNat then none
    else some { s with
      howMany := Function.update s.howMany c 0
      mem := memset s.mem pos (x * 8).toNat
      bitmap := freeUp s.bitmap c x.toNat }
  else none

/-! ## Calls -/

/-- One call, or one store by the program that uses the allocator; what returns no pointer gives
    `.null`. -/
def exec (s : PagedHeap) : Call World → Option (Pointer × PagedHeap)
  | .alloc w size => alloc w size s
  | .dealloc pos => do
    let s' ← dealloc pos s
    return (.null, s')
  | .store pos v => some (.null, { s with mem := Function.update s.mem pos v })

/-- Runs that start behind `init_alloc`. -/
def system : Lts (PagedHeap × List Block) (Event World) :=
  client (fun s => ∃ s₀, s = initAlloc s₀) exec

end OsCodes.Malloc.Ealloc
