/-
  The books of `ealloc.c`.

  `Book` ties the flat tables and the pages to the client's blocks: the tables describe them
  (`Tiles`), every block starts in a row that has a page, and no two pages meet.  A block may run
  into the rows behind its own.  Mapping a page, taking chunks and giving a block back keep the
  books; `Book.dealloc` also says which chunks a block comes back to.

  The four laws of `ealloc.c` in the modules behind this one share these books, and each adds its
  own condition: that blocks lie in one page (`EallocApart`), that every row in use has a page
  (`EallocGrowth`), or that free chunks are zero (`EallocZero`).  `Apart` and `Fresh` are what
  `mmap` promises; an `mmap` that fails leaves the address -1 in the table, and `Apart` keeps
  pages above it.
-/
import OsCodes.Malloc.EallocSearch

namespace OsCodes.Malloc.Ealloc

/-! ## Pages -/

/-- Row `j` has a page: `mmap` has given it an address. -/
def Mapped (s : PagedHeap) (j : Nat) : Prop := j < s.currPagesUsed ∧ s.ptr j ≠ -1

/-- A page lies above the address -1 that failed calls leave, and apart from every other row. -/
def Apart (s : PagedHeap) : Prop :=
  ∀ j, Mapped s j → 4096 ≤ s.ptr j ∧ ∀ i, i < s.currPagesUsed → i ≠ j →
    s.ptr i + 4096 ≤ s.ptr j ∨ s.ptr j + 4096 ≤ s.ptr i

/-- What `mmap` returns: `MAP_FAILED`, or a page at an address other than `NULL` that meets none
    of the pages there are. -/
def Fresh (w : World) (s : PagedHeap) : Prop :=
  w.mmap = -1 ∨ 4096 ≤ w.mmap ∧ ∀ j, Mapped s j →
    s.ptr j + 4096 ≤ w.mmap ∨ w.mmap + 4096 ≤ s.ptr j

/-- The block is inside the page at `base`. -/
def Within (base : Int) (b : Block) : Prop := base ≤ b.pos ∧ b.pos + b.size ≤ base + 4096

/-- The block is inside one mapped page. -/
def InPage (s : PagedHeap) (b : Block) : Prop := ∃ j, Mapped s j ∧ Within (s.ptr j) b

/-- Where chunk `k` of the flat tables is. -/
def chunkAt (ptr : Nat → Int) (k : Nat) : Int := ptr (k / 16) + (k % 16 : Nat) * 256

/-- The block of `c.2` chunks at chunk `c.1`. -/
def blockAt (ptr : Nat → Int) (c : Nat × Nat) : Block := ⟨chunkAt ptr c.1, (256 * c.2 : Nat)⟩

theorem chunkAt_row (ptr : Nat → Int) {j i : Nat} (hi : i < 16) :
    chunkAt ptr (16 * j + i) = ptr j + i * 256 := by
  rw [chunkAt, show (16 * j + i) / 16 = j by omega, show (16 * j + i) % 16 = i by omega]

section Pages

variable {w : World} {s : PagedHeap}

/-- Mapping a page leaves the rows there were. -/
theorem mapPage_ptr {j : Nat} (hj : j < s.currPagesUsed) : (mapPage w s).ptr j = s.ptr j :=
  Function.update_of_ne (by omega) _ _

theorem mapPage_ptr_new : (mapPage w s).ptr s.currPagesUsed = w.mmap := Function.update_self ..

theorem mapped_mapPage {j : Nat} (h : Mapped s j) : Mapped (mapPage w s) j := by
  have hj : j < s.currPagesUsed := h.1
  refine ⟨Nat.lt_succ_of_lt hj, ?_⟩
  rw [mapPage_ptr hj]
  exact h.2

/-- A row that has a page then had one before, or the page is the new one. -/
theorem mapped_mapPage_cases {j : Nat} (h : Mapped (mapPage w s) j) :
    Mapped s j ∧ (mapPage w s).ptr j = s.ptr j ∨
      j = s.currPagesUsed ∧ w.mmap ≠ -1 ∧ (mapPage w s).ptr j = w.mmap := by
  have hj : j < s.currPagesUsed + 1 := h.1
  have hptr := h.2
  by_cases hold : j < s.currPagesUsed
  · rw [mapPage_ptr hold] at hptr
    exact .inl ⟨⟨hold, hptr⟩, mapPage_ptr hold⟩
  · obtain rfl : j = s.currPagesUsed := by omega
    rw [mapPage_ptr_new] at hptr
    exact .inr ⟨rfl, hptr, mapPage_ptr_new⟩

/-- **A fresh page** is apart from the pages there are. -/
theorem Apart.mapPage (h : Apart s) (hw : Fresh w s) : Apart (mapPage w s) := by
  intro j hj
  rcases mapped_mapPage_cases hj with ⟨hold, hptr⟩ | ⟨hnew, hmmap, hptr⟩
  · have hhigh := (h j hold).1
    refine ⟨by rwa [hptr], fun i hi hij => ?_⟩
    have hi : i < s.currPagesUsed + 1 := hi
    rw [hptr]
    by_cases hiold : i < s.currPagesUsed
    · rw [mapPage_ptr hiold]
      exact (h j hold).2 i hiold hij
    · obtain rfl : i = s.currPagesUsed := by omega
      rw [mapPage_ptr_new]
      rcases hw with hfail | ⟨-, hapart⟩
      · omega
      · exact (hapart j hold).symm
  · rcases hw with hfail | ⟨hhigh, hapart⟩
    · exact absurd hfail hmmap
    · refine ⟨by rwa [hptr], fun i hi hij => ?_⟩
      have hi : i < s.currPagesUsed + 1 := hi
      have hiold : i < s.currPagesUsed := by omega
      rw [hptr, mapPage_ptr hiold]
      by_cases hfail : s.ptr i = -1
      · omega
      · exact hapart i ⟨hiold, hfail⟩

/-- Where every row in use has a page, the new one has too. -/
theorem mapped_grown (h : ∀ j, j < s.currPagesUsed → Mapped s j) (hmmap : w.mmap ≠ -1) :
    ∀ j, j < (grown w s).currPagesUsed → Mapped (grown w s) j := by
  intro j hj
  have hj : j < s.currPagesUsed + 1 := hj
  by_cases hold : j < s.currPagesUsed
  · exact mapped_mapPage (h j hold)
  · obtain rfl : j = s.currPagesUsed := by omega
    refine ⟨Nat.lt_succ_self _, ?_⟩
    show (mapPage w s).ptr s.currPagesUsed ≠ -1
    rwa [mapPage_ptr_new]

/-- An address is in one page only. -/
theorem Apart.unique (h : Apart s) {i j : Nat} {a : Int} (hi : i < s.currPagesUsed)
    (hj : Mapped s j) (hai : s.ptr i ≤ a) (hai' : a < s.ptr i + 4096) (haj : s.ptr j ≤ a)
    (haj' : a < s.ptr j + 4096) : i = j := by
  by_contra hij
  have := (h j hj).2 i hi hij
  omega

/-- **The page lookup** finds the page that the address is in. -/
theorem pageOf_eq (h : Apart s) {j : Nat} {a : Int} (hj : Mapped s j) (haj : s.ptr j ≤ a)
    (haj' : a < s.ptr j + 4096) : pageOf a s = j := by
  rw [pageOf]
  cases hfind : (List.range s.currPagesUsed).find? fun i =>
      decide (0 ≤ a - s.ptr i ∧ a - s.ptr i < 4096) with
  | none =>
    have hno := List.find?_eq_none.mp hfind j (List.mem_range.mpr hj.1)
    rw [decide_eq_true_eq] at hno
    omega
  | some i =>
    have hi := List.find?_some hfind
    have hmem := List.mem_range.mp (List.mem_of_find?_eq_some hfind)
    rw [decide_eq_true_eq] at hi
    show i = j
    exact h.unique hmem hj (by omega) (by omega) haj haj'

end Pages

/-! ## The books -/

/-- The tables describe the client's blocks, and every block starts in a page. -/
structure Book (s : PagedHeap) (live : List Block) : Prop where
  pages : s.currPagesUsed ≤ 4
  apart : Apart s
  tiles : ∃ blocks, live = blocks.map (blockAt s.ptr) ∧ Tiles 64 s.bitmap s.howMany blocks ∧
    ∀ c ∈ blocks, Mapped s (c.1 / 16)

namespace Book

variable {w : World} {s : PagedHeap} {live : List Block}

theorem init (s₀ : PagedHeap) : Book (initAlloc s₀) [] where
  pages := Nat.zero_le 4
  apart _ hj := absurd hj.1 (Nat.not_lt_zero _)
  tiles := ⟨[], rfl, Tiles.empty (fun _ _ => rfl) fun _ _ => rfl,
    fun _ hc => absurd hc List.not_mem_nil⟩

/-- The books do not depend on the memory. -/
theorem withMem (h : Book s live) (mem : Int → UInt8) : Book { s with mem } live :=
  ⟨h.pages, h.apart, h.tiles⟩

/-- A page more. -/
theorem mapPage (h : Book s live) (hcurr : s.currPagesUsed < 4) (hw : Fresh w s) :
    Book (mapPage w s) live := by
  obtain ⟨blocks, hlive, ht, hmapped⟩ := h.tiles
  refine ⟨hcurr, h.apart.mapPage hw, blocks, ?_, ht, fun c hc => mapped_mapPage (hmapped c hc)⟩
  rw [hlive]
  refine List.map_congr_left fun c hc => ?_
  rw [blockAt, blockAt, chunkAt, chunkAt, mapPage_ptr (hmapped c hc).1]

theorem grown (h : Book s live) (hcurr : s.currPagesUsed < 4) (hw : Fresh w s) :
    Book (grown w s) live := (h.mapPage hcurr hw).withMem _

/-- **Taking** free chunks from a column of a mapped row on. -/
theorem take (h : Book s live) {r j i : Nat} (hr : 0 < r) (hj : Mapped s j) (hi : i < 16)
    (hin : 16 * j + i + r ≤ 64) (hfree : ∀ x, x < r → s.bitmap (16 * j + (i + x)) = true) :
    Book (take s (16 * j + i) r) (⟨s.ptr j + i * 256, (256 * r : Nat)⟩ :: live) := by
  obtain ⟨blocks, hlive, ht, hmapped⟩ := h.tiles
  refine ⟨h.pages, h.apart, (16 * j + i, r) :: blocks, ?_, ?_, ?_⟩
  · rw [hlive, List.map_cons, blockAt, ← chunkAt_row s.ptr hi]
    rfl
  · refine ht.add hr hin (fun k hk hk' => ?_) (fun k => markDown_apply _ k r s.bitmap) rfl
    have hk : 16 * j + i ≤ k := hk
    have hk' : k < 16 * j + i + r := hk'
    have hx := hfree (k - (16 * j + i)) (by omega)
    rwa [show 16 * j + (i + (k - (16 * j + i))) = k by omega] at hx
  · intro c hc
    rcases List.mem_cons.mp hc with rfl | hc
    · rw [show (16 * j + i, r).1 / 16 = j by simp only; omega]
      exact hj
    · exact hmapped c hc

/-- What `dealloc` leaves of a block of `c.2` chunks at chunk `c.1`. -/
def back (s : PagedHeap) (c : Nat × Nat) : PagedHeap :=
  { s with
    howMany := Function.update s.howMany c.1 0
    mem := memset s.mem (chunkAt s.ptr c.1) (c.2 * 8)
    bitmap := freeUp s.bitmap c.1 c.2 }

/-- **Giving back** a live block: the lookup finds its page, its chunks are free again, and eight
    bytes for each of them are cleared. -/
theorem dealloc (h : Book s live) {pos : Int} (hpos : ∃ b ∈ live, b.pos = pos) :
    ∃ l₁ c l₂, live = l₁ ++ blockAt s.ptr c :: l₂ ∧ (blockAt s.ptr c).pos = pos ∧
      dropped live pos = l₁ ++ l₂ ∧ Mapped s (c.1 / 16) ∧ 0 < c.2 ∧ c.1 + c.2 ≤ 64 ∧
      (pageOf pos s = c.1 / 16 ∧ (pos - s.ptr (c.1 / 16)).tdiv 256 = (c.1 % 16 : Nat) ∧
        s.howMany c.1 = c.2) ∧
      Ealloc.dealloc pos s = some (back s c) ∧ Book (back s c) (l₁ ++ l₂) := by
  obtain ⟨blocks, hlive, ht, hmapped⟩ := h.tiles
  obtain ⟨l₁, b, l₂, hsplit, hb, hdrop⟩ := dropped_split hpos
  -- the list splits at chunk level
  rw [hlive] at hsplit
  obtain ⟨m₁, m, rfl, rfl, hm⟩ := List.map_eq_append_iff.mp hsplit
  obtain ⟨c, m₂, rfl, rfl, rfl⟩ := List.map_eq_cons_iff.mp hm
  have hmem : c ∈ m₁ ++ c :: m₂ := by simp
  have hcpos := ht.pos c hmem
  have hin := ht.inside c hmem
  have hc := hmapped c hmem
  have hb' : s.ptr (c.1 / 16) + ((c.1 % 16 : Nat) : Int) * 256 = pos := hb
  have hpage : pageOf pos s = c.1 / 16 := pageOf_eq h.apart hc (by omega) (by omega)
  have hchunk : (pos - s.ptr (c.1 / 16)).tdiv 256 = (c.1 % 16 : Nat) := by
    rw [← hb', show s.ptr (c.1 / 16) + ((c.1 % 16 : Nat) : Int) * 256 - s.ptr (c.1 / 16) =
      ((256 * (c.1 % 16) : Nat) : Int) by omega, tdiv_chunk]
  have hcount := ht.count c hmem
  refine ⟨_, c, _, by rw [hlive, hsplit], hb, hdrop, hc, hcpos, hin,
    ⟨hpage, hchunk, hcount⟩, ?_, h.pages, h.apart, m₁ ++ m₂, ?_, ?_, ?_⟩
  · have hcell : 16 * ((c.1 / 16 : Nat) : Int) + ((c.1 % 16 : Nat) : Int) = (c.1 : Nat) := by omega
    have hfit : ¬ 64 < c.1 + c.2 := by omega
    have hbytes : ((c.2 : Int) * 8).toNat = c.2 * 8 := by omega
    simp only [Ealloc.dealloc, hpage, hchunk, hcell]
    rw [if_pos (by omega)]
    simp only [Int.toNat_natCast, hcount, if_neg hfit, hbytes, ← hb]
    rfl
  · rw [List.map_append]
    rfl
  · exact ht.remove (fun k => freeUp_apply s.bitmap c.1 k c.2) rfl
  · intro c' hc'
    apply hmapped c'
    rw [List.mem_append] at hc' ⊢
    exact hc'.imp_right (List.mem_cons_of_mem _)

end Book

/-! ## The first steps of a run -/

/-- Behind `init_alloc`: no page is in use, and every chunk is free. -/
def newHeap : PagedHeap := initAlloc ⟨0, fun _ => false, fun _ => 1, fun _ => 1, fun _ => 1⟩

theorem newHeap_reach {ok : PagedHeap × List Block → Event World → Prop} :
    (system.guard ok).Reach (newHeap, []) := .start ⟨⟨_, rfl⟩, rfl⟩

theorem newHeap_fresh (w : World) (hw : 4096 ≤ w.mmap) : Fresh w newHeap :=
  .inr ⟨hw, fun j hj => absurd hj.1 (Nat.not_lt_zero j)⟩

/-- One chunk is taken, in a page at 8192. -/
def oneTaken : PagedHeap := take (grown ⟨fun _ _ => none, 8192⟩ newHeap) 0 1

theorem oneTaken_fresh (w : World) (hw : 12288 ≤ w.mmap) : Fresh w oneTaken := by
  refine .inr ⟨by omega, fun j hj => .inl ?_⟩
  have hj : j < 1 := hj.1
  obtain rfl : j = 0 := by omega
  exact hw

end OsCodes.Malloc.Ealloc
