/-
  When `ealloc.c` runs out of chunks.

  Behind its two loops `alloc` has no `return`: with all pages in use and no room in them control
  leaves the function there.  The search reads a row on into the rows behind it, so that a block
  may begin in one row and end in the next; the next row is then mapped with chunks of it in use,
  and a request for a whole page gets `NULL` although a page was left.  `answered_iff` says from
  which states a request is answered as it should be.

  Here the tables lie in memory one row behind the other, and what is behind the last row is not
  said (`LiesFlat`).  A run of free chunks is then one in the flat table (`FreeFrom`), in
  whichever rows it lies.  `Exhausted` and `Answered` are the promise of the interface: `NULL`
  where no page has room and none is left, and an address in a mapped page otherwise.  `Enough` is
  the condition on the state:

  - with four pages in use, one of them has room; then the search stops in it;
  - with fewer, a run begins in a mapped row or in the next, which is mapped for it.

  `answered_iff` shows that one request is answered as promised exactly then, by the outcomes of
  `EallocSearch`, and `ealloc_exhaustion` carries it over all runs.  `ealloc_exhausted_undefined`
  is the run that a client meets first: four pages are taken, and a fifth request comes back with
  nothing.
-/
import OsCodes.Malloc.EallocFail

namespace OsCodes.Malloc.Ealloc

/-! ## Runs of free chunks -/

/-- `bitmap[j][c]` with `c` outside row `j` is the cell of the row behind, as the table lies in
    memory; what lies behind the table is not said. -/
def LiesFlat (w : World) (s : PagedHeap) : Prop :=
  ∀ j c, 16 * j + c < 64 → w.past j c = some (s.bitmap (16 * j + c))

/-- `r` free chunks of the table from column `i` of row `j` on, in whichever rows they are. -/
def FreeFrom (bitmap : Nat → Bool) (r j i : Nat) : Prop :=
  16 * j + i + r ≤ 64 ∧ ∀ x, x < r → bitmap (16 * j + (i + x)) = true

section Flat

variable {w : World} {s : PagedHeap} {r j i : Nat}

theorem LiesFlat.probe (h : LiesFlat w s) {c : Nat} (hc : 16 * j + c < 64) :
    probe w.past s.bitmap j c = some (s.bitmap (16 * j + c)) := by
  rw [Ealloc.probe]
  split
  · rfl
  · exact h j c hc

theorem FreeFrom.fits (h : FreeFrom s.bitmap r j i) (hw : LiesFlat w s) :
    Fits (Ealloc.probe w.past s.bitmap j) i r := by
  intro x hx
  have hin := h.1
  rw [hw.probe (by omega), h.2 x hx]

/-- A row that lets the search go on has no run in it. -/
theorem Full.no_run (h : Full w.past s.bitmap r j) (hw : LiesFlat w s) (hi : i < 16) :
    ¬ FreeFrom s.bitmap r j i := fun hrun => (h i hi).not_fits (hrun.fits hw)

theorem Room.freeFrom (h : Room s.bitmap r j i) (hj : j < 4) : FreeFrom s.bitmap r j i := by
  have hin := h.1
  exact ⟨by omega, h.2⟩

/-- The cells in which a search stops, as far as they are in the table. -/
theorem Takes.freeFrom (h : Takes w.past s.bitmap r j i) (hw : LiesFlat w s)
    (hin : 16 * j + i + r ≤ 64) : FreeFrom s.bitmap r j i := by
  refine ⟨hin, fun x hx => ?_⟩
  have hp := h.fits x hx
  rw [hw.probe (by omega)] at hp
  exact Option.some.inj hp

/-- Where the search of a row comes to the end of the table, no run begins in the row. -/
theorem no_run_of_end (hw : LiesFlat w s) (hend : 64 < 16 * j + i + r)
    (hfirst : ∀ i', i' < i → Blocked (Ealloc.probe w.past s.bitmap j) i' r) (i' : Nat) :
    ¬ FreeFrom s.bitmap r j i' := by
  intro hrun
  have hin := hrun.1
  exact (hfirst i' (by omega)).not_fits (hrun.fits hw)

/-- A search that is refused has come to the end of the table. -/
theorem Leaves.end_of_table (h : Leaves w.past s.bitmap r j) (hw : LiesFlat w s) :
    ∃ i, i < 16 ∧ 64 < 16 * j + i + r ∧
      ∀ i', i' < i → Blocked (Ealloc.probe w.past s.bitmap j) i' r := by
  obtain ⟨i, hi, ⟨x, hx, -, hnone⟩, hfirst⟩ := h
  refine ⟨i, hi, ?_, hfirst⟩
  by_contra hlt
  rw [hw.probe (by omega)] at hnone
  cases hnone

theorem Leaves.no_run (h : Leaves w.past s.bitmap r j) (hw : LiesFlat w s) (i' : Nat) :
    ¬ FreeFrom s.bitmap r j i' := by
  obtain ⟨i, -, hend, hfirst⟩ := h.end_of_table hw
  exact no_run_of_end hw hend hfirst i'

/-- Rows without a place, and a last one without a run, have none between them. -/
theorem no_run_through (hw : LiesFlat w s) (hfull : ∀ j', j' < j → Full w.past s.bitmap r j')
    (hlast : ∀ i', i' < 16 → ¬ FreeFrom s.bitmap r j i') {j' i' : Nat} (hj' : j' ≤ j)
    (hi' : i' < 16) : ¬ FreeFrom s.bitmap r j' i' := by
  rcases Nat.lt_or_eq_of_le hj' with hlt | rfl
  · exact (hfull j' hlt).no_run hw hi'
  · exact hlast i' hi'

end Flat

/-! ## One request -/

/-- All four pages are mapped, and none has `r` free chunks in a row. -/
def Exhausted (s : PagedHeap) (r : Nat) : Prop :=
  (∀ j, j < 4 → Mapped s j) ∧ ∀ j i, j < 4 → ¬ Room s.bitmap r j i

/-- The request returns a value: `NULL` where the pages are exhausted and nowhere else, and
    otherwise an address in a mapped page. -/
def Answered (w : World) (s : PagedHeap) (r : Nat) : Prop :=
  ∃ ret s', alloc w (256 * r : Nat) s = some (ret, s') ∧ ret ≠ .undefined ∧
    (ret = .null ↔ Exhausted s r) ∧ ∀ p, ret = .at p → InMapped s' p

/-- With four pages one of them has room; with fewer a run of free chunks begins in a mapped row
    or in the next. -/
def Enough (s : PagedHeap) (r : Nat) : Prop :=
  (s.currPagesUsed = 4 → ∃ j i, j < 4 ∧ Room s.bitmap r j i) ∧
    (s.currPagesUsed < 4 → ∃ j i, j ≤ s.currPagesUsed ∧ i < 16 ∧ FreeFrom s.bitmap r j i)

section Request

variable {w : World} {s : PagedHeap} {r : Nat}

theorem not_answered_none (hrun : alloc w (256 * r : Nat) s = none) : ¬ Answered w s r := by
  rintro ⟨ret, s', h, -⟩
  rw [hrun] at h
  cases h

theorem not_exhausted (hcurr : s.currPagesUsed < 4) : ¬ Exhausted s r :=
  fun h => Nat.lt_irrefl _ (Nat.lt_of_lt_of_le (h.1 _ hcurr).1 (Nat.le_refl _))

/-- The search has come past the rows in use, of which there are four, or stopped at the end of
    the last. -/
theorem not_enough_four (hcurr : s.currPagesUsed = 4)
    (hno : ∀ j i, j < 4 → i < 16 → ¬ FreeFrom s.bitmap r j i) (hr : 0 < r) : ¬ Enough s r := by
  rintro ⟨hfour, -⟩
  obtain ⟨j, i, hj, hroom⟩ := hfour hcurr
  have hin := hroom.1
  exact hno j i hj (by omega) (hroom.freeFrom hj)

/-- The same with a row that is mapped now. -/
theorem not_enough_new (hcurr : s.currPagesUsed < 4)
    (hno : ∀ j i, j ≤ s.currPagesUsed → i < 16 → ¬ FreeFrom s.bitmap r j i) : ¬ Enough s r := by
  rintro ⟨-, hnew⟩
  obtain ⟨j, i, hj, hi, hrun⟩ := hnew hcurr
  exact hno j i hj hi hrun

/-- An address in a row in use. -/
theorem answered_at {s' : PagedHeap} {p : Int}
    (hrun : alloc w (256 * r : Nat) s = some (.at p, s')) (hin : InMapped s' p) :
    Answered w s r ↔ ¬ Exhausted s r := by
  constructor
  · rintro ⟨ret, t, hrun', -, hnull, -⟩ hex
    obtain ⟨rfl, -⟩ := Prod.mk.inj (Option.some.inj (hrun.symm.trans hrun'))
    cases hnull.mpr hex
  · refine fun hex => ⟨_, _, hrun, fun h => (by cases h), ⟨fun h => (by cases h), fun h => ?_⟩,
      fun a ha => ?_⟩
    · exact absurd h hex
    · obtain rfl := Pointer.at.inj ha
      exact hin

/-- Where a run begins in a row in use, the pages are exhausted if there is not enough. -/
theorem not_exhausted_iff {j i : Nat} (h : Rows s) (hj : j < s.currPagesUsed) (hi : i < 16)
    (hrun : FreeFrom s.bitmap r j i) : ¬ Exhausted s r ↔ Enough s r := by
  constructor
  · intro hex
    refine ⟨fun hfour => ?_, fun _ => ⟨j, i, Nat.le_of_lt hj, hi, hrun⟩⟩
    by_contra hno
    exact hex ⟨fun j hj => h.mapped j (by omega), fun j i hj hroom => hno ⟨j, i, hj, hroom⟩⟩
  · rintro ⟨hfour, -⟩ ⟨hmapped, hno⟩
    have hlast : 3 < s.currPagesUsed := (hmapped 3 (by omega)).1
    have hpages := h.pages
    obtain ⟨j, i, hj, hroom⟩ := hfour (by omega)
    exact hno j i hj hroom

/-- **One request** of up to a page. -/
theorem answered_iff (h : Rows s) (hw : LiesFlat w s) (hmmap : w.mmap ≠ -1) (hr : 0 < r)
    (hpage : r ≤ 16) : Answered w s r ↔ Enough s r := by
  have hpages := h.pages
  have ho := alloc_outcome w s r
  suffices hall : ∀ o, alloc w (256 * r : Nat) s = o → Outcome w s r o →
      (Answered w s r ↔ Enough s r) from hall _ rfl ho
  intro o hrun ho
  cases ho with
  | @mapped j i hj hfull htakes =>
    have hcol := htakes.col
    by_cases hin : 64 < 16 * j + i + r
    · -- a run that ends behind the table begins in the last row
      rw [place, if_pos hin] at hrun
      refine iff_of_false (not_answered_none hrun)
        (not_enough_four (by omega) (fun j' i' hj' hi' => ?_) hr)
      exact no_run_through hw hfull (fun i' _ => no_run_of_end hw hin htakes.first i') (by omega) hi'
    · rw [place, if_neg hin] at hrun
      rw [answered_at hrun (h.inMapped hj hcol rfl rfl)]
      exact not_exhausted_iff h hj hcol (htakes.freeFrom hw (by omega))
  | @leaves j hj hfull hleaves =>
    obtain ⟨i, hi, hend, -⟩ := hleaves.end_of_table hw
    refine iff_of_false (not_answered_none hrun)
      (not_enough_four (by omega) (fun j' i' hj' hi' => ?_) hr)
    exact no_run_through hw hfull (fun i' _ => hleaves.no_run hw i') (by omega) hi'
  | outOfPages hfull hcurr =>
    refine iff_of_false (fun ha => ?_)
      (not_enough_four (by omega) (fun j i hj hi => (hfull j (by omega)).no_run hw hi) hr)
    obtain ⟨ret, s', hrun', hdef, -⟩ := ha
    obtain ⟨rfl, -⟩ := Prod.mk.inj (Option.some.inj (hrun.symm.trans hrun'))
    exact hdef rfl
  | mapFailed _ _ hfail => exact absurd hfail hmmap
  | @newTakes i hfull hcurr _ htakes =>
    have hcol := htakes.col
    by_cases hin : 64 < 16 * s.currPagesUsed + i + r
    · rw [place, if_pos hin] at hrun
      refine iff_of_false (not_answered_none hrun) (not_enough_new hcurr fun j' i' hj' hi' => ?_)
      exact no_run_through hw hfull (fun i' _ => no_run_of_end hw hin htakes.first i') hj' hi'
    · rw [place, if_neg hin] at hrun
      refine iff_of_true ((answered_at hrun ?_).mpr (not_exhausted hcurr)) ⟨fun hfour => ?_,
        fun _ => ⟨_, i, Nat.le_refl _, hcol, htakes.freeFrom hw (by omega)⟩⟩
      · exact (h.grown hcurr hmmap).inMapped (Nat.lt_succ_self _) hcol rfl rfl
      · omega
  | newFull hfull hcurr _ hnew =>
    refine iff_of_false (fun ha => ?_) (not_enough_new hcurr fun j' i' hj' hi' => ?_)
    · obtain ⟨ret, s', hrun', -, hnull, -⟩ := ha
      obtain ⟨rfl, -⟩ := Prod.mk.inj (Option.some.inj (hrun.symm.trans hrun'))
      exact not_exhausted hcurr (hnull.mp rfl)
    · exact no_run_through hw hfull (fun i' hi' => hnew.no_run hw hi') hj' hi'
  | newLeaves hfull hcurr _ hleaves =>
    refine iff_of_false (not_answered_none hrun) (not_enough_new hcurr fun j' i' hj' hi' => ?_)
    exact no_run_through hw hfull (fun i' _ => hleaves.no_run hw i') hj' hi'

end Request

/-! ## Runs -/

/-- Requests of any size that meet an `mmap` that succeeds, `dealloc` of live blocks, and any
    stores. -/
def PagesCome (s : PagedHeap × List Block) (e : Event World) : Prop :=
  match e.call with
  | .alloc w _ => w.mmap ≠ -1
  | .dealloc pos => ∃ b ∈ s.2, b.pos = pos
  | .store .. => True

theorem pagesCome_rows {s : PagedHeap × List Block} (h : (system.guard PagesCome).Reach s) :
    Rows s.1 := by
  refine Rows.of_reach (fun s e hok w size hc hfail => ?_) h
  obtain ⟨call, ret⟩ := e
  obtain rfl : call = .alloc w size := hc
  exact absurd hfail hok

/-- **`ealloc.c` at its last chunks.**  In every state that requests and `dealloc`s of live blocks
    lead to while `mmap` succeeds, a request for up to 16 chunks is answered as it should be
    exactly when there is enough. -/
theorem ealloc_exhaustion {s : PagedHeap × List Block} (h : (system.guard PagesCome).Reach s)
    {w : World} (hw : LiesFlat w s.1) (hmmap : w.mmap ≠ -1) {r : Nat} (hr : 0 < r)
    (hpage : r ≤ 16) : Answered w s.1 r ↔ Enough s.1 r :=
  answered_iff (pagesCome_rows h) hw hmmap hr hpage

/-- What a request meets in tables that lie in memory one row behind the other. -/
def flatWorld (s : PagedHeap) (mmap : Int) : World :=
  ⟨fun j c => some (s.bitmap (16 * j + c)), mmap⟩

theorem flatWorld_lies (s : PagedHeap) (mmap : Int) : LiesFlat (flatWorld s mmap) s :=
  fun _ _ _ => rfl

/-- Three pages in one block each, and of the fourth all but the last chunk. -/
def threePages : List (Call World) :=
  [.alloc ⟨fun _ _ => none, 8192⟩ 4096, .alloc ⟨fun _ _ => none, 16384⟩ 4096,
    .alloc ⟨fun _ _ => none, 24576⟩ 4096, .alloc ⟨fun _ _ => none, 32768⟩ 3840]

/-- One chunk is left of four pages: a request for one is answered, and a request for two is
    not. -/
theorem ealloc_exhaustion_last : ∃ s, (system.guard PagesCome).Reach s ∧
    (∀ j, j < 4 → Mapped s.1 j) ∧ Answered (flatWorld s.1 40960) s.1 1 ∧
    ¬ Answered (flatWorld s.1 40960) s.1 2 := by
  have hrun : (runCalls exec threePages (newHeap, [])).map
      (fun s => (s.1.currPagesUsed, (List.range 64).map s.1.bitmap)) =
        some (4, List.replicate 63 false ++ [true]) := by decide +kernel
  obtain ⟨s, hs, htables⟩ := Option.map_eq_some_iff.mp hrun
  obtain ⟨hcurr, hbitmap⟩ := Prod.mk.inj htables
  have hreach : (system.guard PagesCome).Reach s := by
    refine runCalls_reach _ newHeap_reach ?_ hs
    rintro s' ⟨call, ret⟩ he
    simp only [threePages, List.mem_cons, List.not_mem_nil, or_false] at he
    rcases he with rfl | rfl | rfl | rfl
    · exact show (8192 : Int) ≠ -1 by decide
    · exact show (16384 : Int) ≠ -1 by decide
    · exact show (24576 : Int) ≠ -1 by decide
    · exact show (32768 : Int) ≠ -1 by decide
  have hcell : ∀ k, k < 64 → s.1.bitmap k = decide (k = 63) := by
    intro k hk
    have hget := congrArg (fun l : List Bool => l[k]?) hbitmap
    simp only [List.getElem?_map, List.getElem?_range hk, Option.map_some] at hget
    have hall : ∀ k < 64, (List.replicate 63 false ++ [true])[k]? = some (decide (k = 63)) := by
      decide
    rw [hall k hk] at hget
    exact Option.some.inj hget
  have hmmap : (flatWorld s.1 40960).mmap ≠ -1 := show (40960 : Int) ≠ -1 by decide
  have hiff : ∀ r, 0 < r → r ≤ 16 → (Answered (flatWorld s.1 40960) s.1 r ↔ Enough s.1 r) :=
    fun r hr hpage => ealloc_exhaustion hreach (flatWorld_lies s.1 40960) hmmap hr hpage
  refine ⟨s, hreach, fun j hj => (pagesCome_rows hreach).mapped j (by omega),
    (hiff 1 (by decide) (by decide)).mpr ⟨fun _ => ⟨3, 15, by decide, by decide, fun x hx => ?_⟩,
      fun hfew => ?_⟩, fun hanswer => ?_⟩
  · obtain rfl : x = 0 := by omega
    rw [hcell _ (by decide)]
    rfl
  · rw [hcurr] at hfew
    exact absurd hfew (Nat.lt_irrefl 4)
  · -- two chunks in a row begin before the last
    obtain ⟨hfour, -⟩ := (hiff 2 (by decide) (by decide)).mp hanswer
    obtain ⟨j, i, hj, hin, hfree⟩ := hfour hcurr
    have hfirst := hfree 0 (by decide)
    rw [hcell _ (by omega), decide_eq_true_eq] at hfirst
    omega

/-- Four requests for a page. -/
def fourPages : List (Call World) :=
  [8192, 16384, 24576, 32768].map fun mmap => .alloc ⟨fun _ _ => none, mmap⟩ 4096

/-- **The fifth page**: control leaves `alloc` without a `return`. -/
theorem ealloc_exhausted_undefined :
    ¬ ∀ s, (system.guard PagesCome).Reach s → ∀ w, LiesFlat w s.1 → w.mmap ≠ -1 →
      ∀ r, 0 < r → r ≤ 16 → Answered w s.1 r := by
  intro h
  have hrun : (runCalls exec fourPages (newHeap, [])).map
      (fun s => (s.1.currPagesUsed, (List.range 64).map s.1.bitmap)) =
        some (4, List.replicate 64 false) := by decide +kernel
  obtain ⟨s, hs, htables⟩ := Option.map_eq_some_iff.mp hrun
  obtain ⟨hcurr, hbitmap⟩ := Prod.mk.inj htables
  have hreach : (system.guard PagesCome).Reach s := by
    refine runCalls_reach _ newHeap_reach ?_ hs
    rintro s' ⟨call, ret⟩ he
    obtain ⟨mmap, hmmap, rfl⟩ := List.mem_map.mp he
    have hok : ∀ mmap ∈ ([8192, 16384, 24576, 32768] : List Int), mmap ≠ -1 := by decide
    exact hok mmap hmmap
  have htaken : ∀ k, k < 64 → s.1.bitmap k = false := by
    intro k hk
    refine (List.eq_replicate_iff.mp hbitmap).2 _ ?_
    exact List.mem_map_of_mem (List.mem_range.mpr hk)
  have hmmap : (flatWorld s.1 40960).mmap ≠ -1 := show (40960 : Int) ≠ -1 by decide
  have hanswer := h s hreach _ (flatWorld_lies s.1 40960) hmmap 1 (by decide) (by decide)
  obtain ⟨hfour, -⟩ := (answered_iff (pagesCome_rows hreach) (flatWorld_lies s.1 40960) hmmap
    (by decide) (by decide)).mp hanswer
  obtain ⟨j, i, hj, hin, hfree⟩ := hfour hcurr
  have hfirst := hfree 0 (by decide)
  rw [htaken _ (by omega)] at hfirst
  cases hfirst

end OsCodes.Malloc.Ealloc
