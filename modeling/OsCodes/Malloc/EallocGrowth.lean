/-
  When `ealloc.c` maps a page.

  Here a column outside its row is the cell of the rows behind, as the tables lie in memory, and
  what is behind the tables reads as in use.  Blocks may then run from one row into the next, but
  the books hold, so that every `dealloc` finds its block, and all pages can be used again.

  1. `Ledger` is the invariant: the books, and a page for every row in use;
  2. `Ledger.step` answers every allowed call and keeps it; the number of pages grows by one, and
     only for a request that no page has the chunks for (`GrowsFor`);
  3. `Filled` are the tables with the first chunks in use.  Request after request fills them from
     the start (`Filled.allocAll`), so that four pages are all there again once everything is
     given back;
  4. `ealloc_growth` states both for every run.
-/
import OsCodes.Malloc.EallocBook

namespace OsCodes.Malloc.Ealloc

/-! ## Searches over flat tables -/

/-- `bitmap[j][c]` in the table as it lies in memory, in use behind it. -/
def flatPast (bitmap : Nat → Bool) (j c : Nat) : Option Bool :=
  some (decide (16 * j + c < 64) && bitmap (16 * j + c))

section Flat

variable {bitmap : Nat → Bool} {r j i : Nat}

theorem probe_flat (hj : j < 4) (c : Nat) :
    probe (flatPast bitmap) bitmap j c = flatPast bitmap j c := by
  rw [probe]
  split
  · rw [flatPast, decide_eq_true (by omega), Bool.true_and]
  · rfl

theorem not_leaves_flat (hj : j < 4) : ¬ Leaves (flatPast bitmap) bitmap r j := by
  rintro ⟨i, -, ⟨x, -, -, hnone⟩, -⟩
  rw [probe_flat hj] at hnone
  cases hnone

/-- The chunks that a search takes are in the tables, and free. -/
theorem Takes.flat (h : Takes (flatPast bitmap) bitmap r j i) (hj : j < 4) (hr : 0 < r) :
    16 * j + i + r ≤ 64 ∧ ∀ x, x < r → bitmap (16 * j + (i + x)) = true := by
  have hcell : ∀ x, x < r → 16 * j + (i + x) < 64 ∧ bitmap (16 * j + (i + x)) = true := by
    intro x hx
    have hp := h.fits x hx
    rw [probe_flat hj, flatPast, Option.some.injEq, Bool.and_eq_true, decide_eq_true_eq] at hp
    exact hp
  have hlast := (hcell (r - 1) (by omega)).1
  exact ⟨by omega, fun x hx => (hcell x hx).2⟩

end Flat

/-! ## Every call has an answer -/

/-- The books, and every row in use a page. -/
structure Ledger (s : PagedHeap) (live : List Block) : Prop where
  book : Book s live
  mapped : ∀ j, j < s.currPagesUsed → Mapped s j

/-- The calls the law is about: requests for a multiple of 256 up to 4096 that meet a fresh page
    and the flat tables, and `dealloc` of live blocks. -/
def FlatAllowed (s : PagedHeap × List Block) : Call World → Prop
  | .alloc w size => w.past = flatPast s.1.bitmap ∧ w.mmap ≠ -1 ∧ Fresh w s.1 ∧ 0 < size ∧
      size ≤ 4096 ∧ size % 256 = 0
  | .dealloc pos => ∃ b ∈ s.2, b.pos = pos
  | .store .. => True

/-- The state `s'` has no page more than `s`, or one more where no page had `r` chunks. -/
def GrowsFor (r : Nat) (s s' : PagedHeap) : Prop :=
  s'.currPagesUsed = s.currPagesUsed ∨ s'.currPagesUsed = s.currPagesUsed + 1 ∧
    ∀ j i, j < s.currPagesUsed → ¬ Room s.bitmap r j i

namespace Ledger

variable {w : World} {s : PagedHeap} {live : List Block}

theorem grown (h : Ledger s live) (hcurr : s.currPagesUsed < 4) (hw : Fresh w s)
    (hmmap : w.mmap ≠ -1) : Ledger (grown w s) live :=
  ⟨h.book.grown hcurr hw, mapped_grown h.mapped hmmap⟩

/-- Where the search stops, the chunks are taken. -/
theorem place (h : Ledger s live) {past : Nat → Nat → Option Bool} {r j i : Nat}
    (hpast : past = flatPast s.bitmap) (hr : 0 < r) (hj : j < s.currPagesUsed)
    (htakes : Takes past s.bitmap r j i) :
    place s r j i = some (.at (s.ptr j + i * 256), take s (16 * j + i) r) ∧
      Ledger (take s (16 * j + i) r) (⟨s.ptr j + i * 256, (256 * r : Nat)⟩ :: live) := by
  have hpages := h.book.pages
  rw [hpast] at htakes
  obtain ⟨hin, hfree⟩ := htakes.flat (by omega) hr
  exact ⟨if_neg (by omega), h.book.take hr (h.mapped j hj) htakes.col hin hfree, h.mapped⟩

/-- **A request** is answered, and maps a page only where no page has the chunks. -/
theorem alloc (h : Ledger s live) (hpast : w.past = flatPast s.bitmap) (hmmap : w.mmap ≠ -1)
    (hw : Fresh w s) {r : Nat} (hr : 0 < r) :
    ∃ ret s', Ealloc.alloc w (256 * r : Nat) s = some (ret, s') ∧
      Ledger s' (gained live (256 * r : Nat) ret) ∧ GrowsFor r s s' := by
  have hpages := h.book.pages
  have ho := alloc_outcome w s r
  generalize Ealloc.alloc w (256 * r : Nat) s = o at ho ⊢
  cases ho with
  | @mapped j i hj _ htakes =>
    obtain ⟨hplace, htake⟩ := h.place hpast hr hj htakes
    exact ⟨_, _, hplace, htake, .inl rfl⟩
  | @leaves j hj _ hleaves =>
    rw [hpast] at hleaves
    exact absurd hleaves (not_leaves_flat (by omega))
  | outOfPages _ _ => exact ⟨_, _, rfl, h, .inl rfl⟩
  | mapFailed _ _ hfail => exact absurd hfail hmmap
  | @newTakes i hfull hcurr _ htakes =>
    have hgrown := h.grown hcurr hw hmmap
    obtain ⟨hplace, htake⟩ := hgrown.place hpast hr (Nat.lt_succ_self _) htakes
    exact ⟨_, _, hplace, htake, .inr ⟨rfl, fun j i hj => (hfull j hj).no_room hr i⟩⟩
  | newFull hfull hcurr _ _ =>
    exact ⟨_, _, rfl, h.grown hcurr hw hmmap,
      .inr ⟨rfl, fun j i hj => (hfull j hj).no_room hr i⟩⟩
  | newLeaves _ hcurr _ hleaves =>
    rw [hpast] at hleaves
    exact absurd hleaves (not_leaves_flat hcurr)

theorem dealloc (h : Ledger s live) {pos : Int} (hpos : ∃ b ∈ live, b.pos = pos) :
    ∃ s', Ealloc.dealloc pos s = some s' ∧ Ledger s' (dropped live pos) ∧
      s'.currPagesUsed = s.currPagesUsed := by
  obtain ⟨l₁, c, l₂, -, -, hdrop, -, -, -, -, hrun, hbook⟩ := h.book.dealloc hpos
  exact ⟨_, hrun, ⟨by rwa [hdrop], h.mapped⟩, rfl⟩

/-- **The step lemma**: every call is answered and keeps the books, and the number of pages grows
    only for a request that no page has the chunks for. -/
theorem step {s : PagedHeap × List Block} (h : Ledger s.1 s.2) {c : Call World}
    (hc : FlatAllowed s c) :
    ∃ ret s', exec s.1 c = some (ret, s') ∧ Ledger s' (after s.2 ⟨c, ret⟩) ∧
      (s'.currPagesUsed = s.1.currPagesUsed ∨ ∃ w size, c = .alloc w size ∧
        GrowsFor (size / 256).toNat s.1 s') := by
  cases c with
  | alloc w size =>
    obtain ⟨hpast, hmmap, hw, hpos, -, hmod⟩ := hc
    obtain ⟨r, hr, rfl, hchunks⟩ := chunks_eq hpos hmod
    obtain ⟨ret, s', hrun, hs', hgrows⟩ := h.alloc hpast hmmap hw hr
    refine ⟨ret, s', hrun, hs', .inr ⟨w, _, rfl, ?_⟩⟩
    rwa [hchunks]
  | dealloc pos =>
    obtain ⟨s', hrun, hs', hcurr⟩ := h.dealloc hc
    refine ⟨.null, s', ?_, hs', .inl hcurr⟩
    simp only [exec, hrun, Option.bind_eq_bind, Option.bind_some, Option.pure_def]
  | store pos v => exact ⟨.null, _, rfl, ⟨h.book.withMem _, h.mapped⟩, .inl rfl⟩

/-- **The run lemma**: the ledger of all pages is right wherever a client gets to whose tables lie
    flat. -/
theorem of_reach {s : PagedHeap × List Block}
    (h : (system.guard fun s e => FlatAllowed s e.call).Reach s) : Ledger s.1 s.2 := by
  refine Lts.Reach.invariant (I := fun s => Ledger s.1 s.2) ?_ ?_ h
  · rintro s ⟨⟨s₀, hs⟩, hlive⟩
    rw [hlive, hs]
    exact ⟨Book.init s₀, fun j hj => absurd hj (Nat.not_lt_zero j)⟩
  · rintro s ⟨c, ret⟩ s' hs ⟨hc, hrun, hlive⟩
    obtain ⟨ret', s₁, hrun', hs₁, -⟩ := hs.step hc
    obtain ⟨rfl, hs'⟩ := Prod.mk.inj (Option.some.inj (hrun'.symm.trans hrun))
    rw [hlive, ← hs']
    exact hs₁

end Ledger

/-! ## All pages again -/

/-- The tables with the first `m` chunks in use. -/
def Filled (m : Nat) (s : PagedHeap) : Prop := ∀ k, k < 64 → s.bitmap k = decide (m ≤ k)

/-- A client that makes one request after the other: what the calls return, and the last state. -/
def allocAll (size : Int) : List Int → PagedHeap → Option (List Pointer × PagedHeap)
  | [], s => some ([], s)
  | mmap :: rest, s => do
    let (p, s') ← alloc ⟨flatPast s.bitmap, mmap⟩ size s
    let (ps, t) ← allocAll size rest s'
    return (p :: ps, t)

/-- With no block left, the tables are as `init_alloc` made them. -/
theorem Ledger.all_free {s : PagedHeap} (h : Ledger s []) :
    Filled 0 s ∧ ∀ k, k < 64 → s.howMany k = 0 := by
  obtain ⟨blocks, hlive, ht, -⟩ := h.book.tiles
  obtain rfl : blocks = [] := List.map_eq_nil_iff.mp hlive.symm
  refine ⟨fun k hk => ?_, fun k hk => ht.rest k hk fun b hb => absurd hb List.not_mem_nil⟩
  have hcover := ht.cover k hk
  cases hb : s.bitmap k with
  | true => rw [decide_eq_true (Nat.zero_le k)]
  | false =>
    rw [hb] at hcover
    cases hcover

/-- **The next request** over filled tables gets the chunks behind. -/
theorem Filled.alloc {s : PagedHeap} {m r : Nat} (h : Filled m s) (hr : 0 < r)
    (hpages : s.currPagesUsed ≤ 4) (hroom : m + r ≤ 16 * s.currPagesUsed)
    (hrow : m % 16 + r ≤ 16) (mmap : Int) :
    alloc ⟨flatPast s.bitmap, mmap⟩ (256 * r : Nat) s =
        some (.at (s.ptr (m / 16) + (m % 16 : Nat) * 256), take s m r) ∧
      Filled (m + r) (take s m r) := by
  have hfree : Room s.bitmap r (m / 16) (m % 16) := by
    refine ⟨hrow, fun x hx => ?_⟩
    rw [h _ (by omega)]
    exact decide_eq_true (by omega)
  have hnot : ¬ Full (flatPast s.bitmap) s.bitmap r (m / 16) :=
    fun hfull => hfull.no_room hr _ hfree
  refine ⟨?_, fun k hk => ?_⟩
  · have ho := alloc_outcome ⟨flatPast s.bitmap, mmap⟩ s r
    generalize Ealloc.alloc ⟨flatPast s.bitmap, mmap⟩ (256 * r : Nat) s = o at ho ⊢
    cases ho with
    | @mapped j i hj hfull htakes =>
      -- the search stops at chunk `m`
      have hcol := htakes.col
      obtain ⟨hin, hcells⟩ := htakes.flat (by omega) hr
      have hbehind : m ≤ 16 * j + i := by
        have hfirst := hcells 0 hr
        rw [h _ (by omega)] at hfirst
        simpa using hfirst
      have hj' : j ≤ m / 16 := by
        by_contra hlt
        exact hnot (hfull _ (by omega))
      have hi' : i ≤ m % 16 := by
        by_contra hlt
        have heq : j = m / 16 := by omega
        rw [heq] at htakes
        exact (htakes.first _ (by omega)).not_fits hfree.fits
      obtain rfl : j = m / 16 := by omega
      obtain rfl : i = m % 16 := by omega
      rw [Ealloc.place, if_neg (by omega), show 16 * (m / 16) + m % 16 = m by omega]
    | @leaves j hj _ hleaves => exact absurd hleaves (not_leaves_flat (by omega))
    | outOfPages hfull _ => exact absurd (hfull _ (by omega)) hnot
    | mapFailed hfull _ _ => exact absurd (hfull _ (by omega)) hnot
    | newTakes hfull _ _ _ => exact absurd (hfull _ (by omega)) hnot
    | newFull hfull _ _ _ => exact absurd (hfull _ (by omega)) hnot
    | newLeaves hfull _ _ _ => exact absurd (hfull _ (by omega)) hnot
  · simp only [take, markDown_apply]
    split
    · exact (decide_eq_false (by omega)).symm
    · rw [h k hk, decide_eq_decide]
      omega

/-- **Request after request** over filled tables, as many as fit. -/
theorem Filled.allocAll {r : Nat} (hr : 0 < r) (hrow : ∀ n, (n * r) % 16 + r ≤ 16) :
    ∀ (mmaps : List Int) {s : PagedHeap} {n : Nat}, Filled (n * r) s → s.currPagesUsed ≤ 4 →
      (n + mmaps.length) * r ≤ 16 * s.currPagesUsed →
      ∃ ps t, allocAll (256 * r : Nat) mmaps s = some (ps, t) ∧ (∀ p ∈ ps, ∃ a, p = .at a) ∧
        t.currPagesUsed = s.currPagesUsed := by
  intro mmaps
  induction mmaps with
  | nil =>
    intro s n _ _ _
    exact ⟨[], s, rfl, fun p hp => absurd hp List.not_mem_nil, rfl⟩
  | cons mmap rest ih =>
    intro s n h hpages hfits
    rw [List.length_cons] at hfits
    have hnext : (n + 1) * r ≤ 16 * s.currPagesUsed :=
      Nat.le_trans (Nat.mul_le_mul_right r (by omega)) hfits
    rw [Nat.succ_mul] at hnext
    obtain ⟨hrun, hfilled⟩ := h.alloc hr hpages hnext (hrow n) mmap
    rw [← Nat.succ_mul] at hfilled
    obtain ⟨ps, t, hrun', hps, hcurr⟩ := ih (n := n + 1) hfilled hpages
      (by rwa [show n + 1 + rest.length = n + (rest.length + 1) by omega])
    have hall : Ealloc.allocAll (256 * r : Nat) (mmap :: rest) s =
        some (.at (s.ptr (n * r / 16) + (n * r % 16 : Nat) * 256) :: ps, t) := by
      rw [Ealloc.allocAll, hrun]
      simp only [Option.bind_eq_bind, Option.bind_some, hrun', Option.pure_def]
    refine ⟨_, t, hall, fun p hp => ?_, hcurr⟩
    rcases List.mem_cons.mp hp with rfl | hp
    · exact ⟨_, rfl⟩
    · exact hps p hp

/-- **`ealloc.c` grows only when it must and reuses freed pages.**  In every run over flat tables:
    every call is answered; the number of pages never falls, is at most 4, and grows only for a
    request whose chunks no page has; and giving back all live blocks in any order frees every
    chunk, so that requests for every chunk, or for every page, are then answered without another
    page. -/
theorem ealloc_growth {s : PagedHeap × List Block}
    (h : (system.guard fun s e => FlatAllowed s e.call).Reach s) :
    (∀ c, FlatAllowed s c → ∃ ret s', exec s.1 c = some (ret, s') ∧
      s.1.currPagesUsed ≤ s'.currPagesUsed ∧ s'.currPagesUsed ≤ 4 ∧
      (s'.currPagesUsed ≠ s.1.currPagesUsed → ∃ w size, c = .alloc w size ∧
        ∀ j i, j < s.1.currPagesUsed → ¬ Room s.1.bitmap (size / 256).toNat j i)) ∧
    ∀ order : List Int, order.Perm (s.2.map Block.pos) →
      ∃ s', deallocAll dealloc order s.1 = some s' ∧ s'.currPagesUsed = s.1.currPagesUsed ∧
        (∀ k, k < 64 → s'.bitmap k = true ∧ s'.howMany k = 0) ∧
        (∀ mmaps : List Int, mmaps.length = 16 * s'.currPagesUsed → ∃ ps t,
          allocAll 256 mmaps s' = some (ps, t) ∧ (∀ p ∈ ps, ∃ a, p = .at a) ∧
          t.currPagesUsed = s'.currPagesUsed) ∧
        ∀ mmaps : List Int, mmaps.length = s'.currPagesUsed → ∃ ps t,
          allocAll 4096 mmaps s' = some (ps, t) ∧ (∀ p ∈ ps, ∃ a, p = .at a) ∧
          t.currPagesUsed = s'.currPagesUsed := by
  have hs := Ledger.of_reach h
  constructor
  · intro c hc
    obtain ⟨ret, s', hrun, hs', hgrows⟩ := hs.step hc
    refine ⟨ret, s', hrun, ?_, hs'.book.pages, fun hne => ?_⟩
    · rcases hgrows with hsame | ⟨w, size, -, hsame | ⟨hmore, -⟩⟩
      · omega
      · omega
      · omega
    · rcases hgrows with hsame | ⟨w, size, hc, hsame | ⟨-, hno⟩⟩
      · exact absurd hsame hne
      · exact absurd hsame hne
      · exact ⟨w, size, hc, hno⟩
  · intro order hperm
    have hstep : ∀ (t : PagedHeap) (live : List Block) (pos : Int),
        Ledger t live ∧ t.currPagesUsed = s.1.currPagesUsed → (∃ b ∈ live, b.pos = pos) →
        ∃ t', dealloc pos t = some t' ∧ Ledger t' (dropped live pos) ∧
          t'.currPagesUsed = s.1.currPagesUsed := by
      rintro t live pos ⟨ht, hcurr⟩ hpos
      obtain ⟨t', hrun, ht', hcurr'⟩ := ht.dealloc hpos
      exact ⟨t', hrun, ht', hcurr'.trans hcurr⟩
    obtain ⟨s', hrun, hs', hcurr⟩ := deallocAll_ok hstep order ⟨hs, rfl⟩ hperm
    obtain ⟨hfilled, hzero⟩ := hs'.all_free
    have hpages := hs'.book.pages
    refine ⟨s', hrun, hcurr, fun k hk => ⟨?_, hzero k hk⟩, fun mmaps hlen => ?_,
      fun mmaps hlen => ?_⟩
    · rw [hfilled k hk]
      exact decide_eq_true (Nat.zero_le k)
    · have hfilled : Filled (0 * 1) s' := hfilled
      exact hfilled.allocAll (by omega) (fun n => by omega) mmaps hpages (by omega)
    · have hfilled : Filled (0 * 16) s' := hfilled
      exact hfilled.allocAll (by omega) (fun n => by omega) mmaps hpages (by omega)

/-- One chunk is taken and given back; the page is then there for a request for all of it. -/
theorem ealloc_growth_reuse :
    ∃ s', deallocAll dealloc [8192] oneTaken = some s' ∧ ∃ ps t,
      allocAll 4096 [16384] s' = some (ps, t) ∧ (∀ p ∈ ps, ∃ a, p = .at a) ∧
      t.currPagesUsed = s'.currPagesUsed := by
  have hfirst : FlatAllowed (newHeap, []) (.alloc ⟨flatPast newHeap.bitmap, 8192⟩ 256) :=
    ⟨rfl, by decide, newHeap_fresh _ (by decide), by decide, by decide, by decide⟩
  have hreach : (system.guard fun s e => FlatAllowed s e.call).Reach
      (oneTaken, [⟨8192, 256⟩]) :=
    .step (e := ⟨.alloc ⟨flatPast newHeap.bitmap, 8192⟩ 256, .at 8192⟩) newHeap_reach
      ⟨hfirst, rfl, rfl⟩
  obtain ⟨s', hrun, hcurr, -, -, hpages⟩ := (ealloc_growth hreach).2 [8192] (List.Perm.refl _)
  have hone : s'.currPagesUsed = 1 := hcurr
  exact ⟨s', hrun, hpages [16384] hone.symm⟩

end OsCodes.Malloc.Ealloc
