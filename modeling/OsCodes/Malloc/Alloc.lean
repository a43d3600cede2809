/-
  The allocator of one page: `malloc-code/alloc.h` and `alloc.c`.

  `PAGESIZE` is 4096, `MINALLOC` 8 and `NUM_ELE` 512; entries of the two arrays are those below
  512.  The search of `alloc` reads `bitmap[i+x]` with no bound on `i+x`.  What lies behind the
  array is the argument `past` of a call: `some b` where the read finds `b`, `none` where it must
  not happen.  A call that would write outside an array has no result.

  Two places of the source read what they should not.  The inner loop of `alloc` looks at
  `bitmap[i+x]` for every `x` below the request, so it passes the end of the array where the free
  run at the end is too short; and a request for 0 bytes is met at once by chunk 0, in whichever
  state that is.  Both are kept as they are: the laws of the other modules say when they make a
  difference.  `dealloc` clears `x * 8` bytes for the chunks it frees, which is the whole block
  here.
-/
import OsCodes.Malloc.Live

namespace OsCodes.Malloc

/-- The globals of `alloc.c`, and the memory. -/
structure Heap where
  /-- `true` for a free chunk -/
  bitmap : Nat → Bool
  howMany : Nat → Int
  ptr : Int
  mem : Int → UInt8

namespace Alloc

/-- `mmap` is the address that `mmap` returns, -1 for `MAP_FAILED`. -/
def initAlloc (mmap : Int) (s : Heap) : Int × Heap :=
  let s := { s with ptr := mmap }
  if mmap = -1 then (-1, s)
  else (0, { s with
    mem := memset s.mem mmap 4096
    bitmap := fun _ => true
    howMany := fun _ => 0 })

/-- `bitmap[k]`. -/
def probe (past : Nat → Option Bool) (bitmap : Nat → Bool) (k : Nat) : Option Bool :=
  if k < 512 then some (bitmap k) else past k

/-- `NULL` for a size that is no multiple of 8 and where no run is found.  Nothing is returned where
    a read or a write goes outside an array and must not. -/
def alloc (past : Nat → Option Bool) (size : Int) (s : Heap) : Option (Pointer × Heap) :=
  if size.tmod 8 ≠ 0 then some (.null, s)
  else do
    let reqMem := size.tdiv 8
    let found ← firstFit (probe past s.bitmap) reqMem 512 0
    match found with
    | none => some (.null, s)
    | some i =>
      if 512 < i + reqMem.toNat then none
      else some (.at (s.ptr + i * 8), { s with
        howMany := Function.update s.howMany i (s.howMany i + reqMem)
        bitmap := markDown s.bitmap i reqMem.toNat })

/-- The chunk of `pos` is looked up, and the count found there says how much is freed and cleared;
    no result where this leads outside the arrays. -/
def dealloc (pos : Int) (s : Heap) : Option Heap :=
  let chunkNum := (pos - s.ptr).tdiv 8
  if 0 ≤ chunkNum ∧ chunkNum < 512 then
    let c := chunkNum.toNat
    let x := s.howMany c
    if 512 < c + x.toNat then none
    else some { s with
      howMany := Function.update s.howMany c 0
      mem := memset s.mem pos (x * 8).toNat
      bitmap := freeUp s.bitmap c x.toNat }
  else none

/-! ## Calls -/

/-- One call, or one store by the program that uses the allocator; what returns no pointer gives
    `.null`. -/
def exec (s : Heap) : Call (Nat → Option Bool) → Option (Pointer × Heap)
  | .alloc past size => alloc past size s
  | .dealloc pos => do
    let s' ← dealloc pos s
    return (.null, s')
  | .store pos v => some (.null, { s with mem := Function.update s.mem pos v })

/-- Runs that start behind an `init_alloc` that succeeds. -/
def system : Lts (Heap × List Block) (Event (Nat → Option Bool)) :=
  client (fun s => ∃ mmap s₀, mmap ≠ -1 ∧ initAlloc mmap s₀ = (0, s)) exec

end Alloc

end OsCodes.Malloc
