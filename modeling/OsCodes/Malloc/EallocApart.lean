/-
  Where the blocks of `ealloc.c` stay inside their pages.

  A search near the end of a row reads on behind it.  `Sheltered` says, of the state before a
  request, that no search gets there.  `alloc_sheltered` splits a request by it, and
  `blocks_apart_iff` is the law of whole runs: while every request is sheltered all blocks are
  inside their pages and apart, and a request that is not sheltered breaks this.

  The proof follows the search row by row: a row that lets the search go on has its last chunk in
  use (`Full.last`), and one in which the search would read on has its last chunk free and no room
  (`Leaves.last`).  So whether a request leaves its row can be seen from the state before it,
  without running the search, and `Sheltered` can be decided.  `nonePast` forbids every read
  outside a row; a request that needs one has no result then, which is how `Kept` notices it.
-/
import OsCodes.Malloc.EallocBook

namespace OsCodes.Malloc.Ealloc

/-! ## Searches that must not leave their row -/

/-- No column outside its row is read. -/
def nonePast : Nat → Nat → Option Bool := fun _ _ => none

section Strict

variable {bitmap : Nat → Bool} {r j i : Nat}

theorem Takes.strict (h : Takes nonePast bitmap r j i) : Room bitmap r j i := by
  apply h.room
  by_contra hlt
  have hcol := h.col
  have hx := h.fits (16 - i) (by omega)
  rw [probe, if_neg (by omega)] at hx
  cases hx

/-- A row that lets the search go on has its last chunk in use. -/
theorem Full.last (h : Full nonePast bitmap r j) : bitmap (16 * j + 15) = false := by
  obtain ⟨x, -, -, hfalse⟩ := h 15 (by omega)
  unfold probe at hfalse
  split at hfalse
  · obtain rfl : x = 0 := by omega
    exact Option.some.inj hfalse
  · cases hfalse

/-- A row in which the search reads on has its last chunk free, and no room. -/
theorem Leaves.last (h : Leaves nonePast bitmap r j) :
    bitmap (16 * j + 15) = true ∧ ∀ i, ¬ Room bitmap r j i := by
  obtain ⟨i, hi, ⟨x, hx, hfits, hnone⟩, hfirst⟩ := h
  have hout : 16 ≤ i + x := by
    by_contra hin
    rw [probe, if_pos (by omega)] at hnone
    cases hnone
  constructor
  · have hp := hfits (15 - i) (by omega)
    rw [probe, if_pos (by omega), show i + (15 - i) = 15 by omega] at hp
    exact Option.some.inj hp
  · intro i' hroom
    have hin := hroom.1
    exact (hfirst i' (by omega)).not_fits hroom.fits

end Strict

/-- Every page that the search has to look at before it finds `r` chunks has its last chunk in
    use; and where no page has them, one can be mapped and is large enough. -/
def Sheltered (s : PagedHeap) (r : Nat) : Prop :=
  (∀ j, j < s.currPagesUsed → (∀ j' i, j' ≤ j → ¬ Room s.bitmap r j' i) →
    s.bitmap (16 * j + 15) = false) ∧
  ((∀ j i, j < s.currPagesUsed → ¬ Room s.bitmap r j i) → s.currPagesUsed < 4 ∧ r ≤ 16)

instance (bitmap : Nat → Bool) (r j i : Nat) : Decidable (Room bitmap r j i) :=
  inferInstanceAs (Decidable (_ ∧ ∀ x, x < r → _))

/-- Room for a request begins in one of the columns, so `Sheltered` can be decided. -/
instance (s : PagedHeap) (r : Nat) : Decidable (Sheltered s r) :=
  have hcol : ∀ {j}, (∀ i < 17, ¬ Room s.bitmap r j i) → ∀ i, ¬ Room s.bitmap r j i :=
    fun hno i hroom => hno i (by have := hroom.1; omega) hroom
  decidable_of_iff ((∀ j < s.currPagesUsed, (∀ j' < j + 1, ∀ i < 17, ¬ Room s.bitmap r j' i) →
      s.bitmap (16 * j + 15) = false) ∧
    ((∀ j < s.currPagesUsed, ∀ i < 17, ¬ Room s.bitmap r j i) → s.currPagesUsed < 4 ∧ r ≤ 16))
    ⟨fun ⟨hlast, hnew⟩ => ⟨fun j hj hno => hlast j hj fun j' hj' i _ => hno j' i (by omega),
        fun hno => hnew fun j hj i _ => hno j i hj⟩,
      fun ⟨hlast, hnew⟩ => ⟨fun j hj hno => hlast j hj fun j' i hj' =>
          hcol (hno j' (by omega)) i, fun hno => hnew fun j i hj => hcol (hno j hj) i⟩⟩

/-! ## Blocks inside their pages -/

/-- The books, every row in use a page, and every block inside one. -/
structure Paged (s : PagedHeap) (live : List Block) : Prop where
  book : Book s live
  mapped : ∀ j, j < s.currPagesUsed → Mapped s j
  inPage : ∀ b ∈ live, InPage s b

/-- A block inside a page is inside its row. -/
theorem Apart.inRow {s : PagedHeap} {c : Nat × Nat} (h : Apart s) (hc : Mapped s (c.1 / 16))
    (hpos : 0 < c.2) (hin : InPage s (blockAt s.ptr c)) : c.1 % 16 + c.2 ≤ 16 := by
  obtain ⟨j, hj, hlow, hhigh⟩ := hin
  simp only [blockAt, chunkAt] at hlow hhigh
  have hrow : c.1 / 16 = j := h.unique (a := s.ptr (c.1 / 16) + (c.1 % 16 : Nat) * 256) hc.1 hj
    (by omega) (by omega) hlow (by omega)
  rw [← hrow] at hhigh
  omega

theorem InPage.mapPage {w : World} {s : PagedHeap} {b : Block} (h : InPage s b) :
    InPage (mapPage w s) b := by
  obtain ⟨j, hj, hin⟩ := h
  refine ⟨j, mapped_mapPage hj, ?_⟩
  rw [mapPage_ptr hj.1]
  exact hin

namespace Paged

variable {w : World} {s : PagedHeap} {live : List Block}

/-- **Blocks are apart**: they are in the cells that the books give them. -/
theorem pairwise (h : Paged s live) : live.Pairwise Block.Disjoint := by
  obtain ⟨blocks, rfl, ht, hmapped⟩ := h.book.tiles
  refine List.pairwise_map.mpr (ht.pairwise.imp_of_mem fun {c c'} hc hc' hapart => ?_)
  have hrow := h.book.apart.inRow (hmapped c hc) (ht.pos c hc)
    (h.inPage _ (List.mem_map_of_mem hc))
  have hrow' := h.book.apart.inRow (hmapped c' hc') (ht.pos c' hc')
    (h.inPage _ (List.mem_map_of_mem hc'))
  simp only [Block.Disjoint, blockAt, chunkAt]
  by_cases heq : c.1 / 16 = c'.1 / 16
  · rw [heq]
    omega
  · have := (h.book.apart _ (hmapped c' hc')).2 _ (hmapped c hc).1 heq
    omega

/-- A row that is not in use is free. -/
theorem unused (h : Paged s live) {k : Nat} (hk : k < 64) (hrow : s.currPagesUsed ≤ k / 16) :
    s.bitmap k = true := by
  obtain ⟨blocks, rfl, ht, hmapped⟩ := h.book.tiles
  by_contra htaken
  obtain ⟨c, hc, hlow, hhigh⟩ := ht.exists_of_taken hk (Bool.eq_false_iff.mpr htaken)
  have hin := h.book.apart.inRow (hmapped c hc) (ht.pos c hc) (h.inPage _ (List.mem_map_of_mem hc))
  have hused := (hmapped c hc).1
  omega

theorem grown (h : Paged s live) (hcurr : s.currPagesUsed < 4) (hw : Fresh w s)
    (hmmap : w.mmap ≠ -1) : Paged (grown w s) live where
  book := h.book.grown hcurr hw
  mapped := mapped_grown h.mapped hmmap
  inPage b hb := (h.inPage b hb).mapPage

/-- Chunks taken inside one row. -/
theorem take (h : Paged s live) {r j i : Nat} (hr : 0 < r) (hj : j < s.currPagesUsed)
    (hroom : Room s.bitmap r j i) :
    Paged (take s (16 * j + i) r) (⟨s.ptr j + i * 256, (256 * r : Nat)⟩ :: live) := by
  have hin := hroom.1
  have hpages := h.book.pages
  refine ⟨h.book.take hr (h.mapped j hj) (by omega) (by omega) hroom.2, h.mapped, fun b hb => ?_⟩
  rcases List.mem_cons.mp hb with rfl | hb
  · refine ⟨j, h.mapped j hj, ?_⟩
    simp only [Within]
    show s.ptr j ≤ _ ∧ _ ≤ s.ptr j + 4096
    omega
  · exact h.inPage b hb

/-- **A request** whose search must not leave its row is answered inside a page if it is
    sheltered; else it does, or control falls off the end. -/
theorem alloc_sheltered (h : Paged s live) (hpast : w.past = nonePast) (hmmap : w.mmap ≠ -1)
    (hw : Fresh w s) {r : Nat} (hr : 0 < r) :
    Sheltered s r ∧ (∃ t j i, alloc w (256 * r : Nat) s =
        some (.at (t.ptr j + i * 256), Ealloc.take t (16 * j + i) r) ∧
        Paged t live ∧ j < t.currPagesUsed ∧ Room t.bitmap r j i) ∨
      ¬ Sheltered s r ∧ (alloc w (256 * r : Nat) s = none ∨
        alloc w (256 * r : Nat) s = some (.undefined, s)) := by
  have hpages := h.book.pages
  have hlast : ∀ j, Full nonePast s.bitmap r j → s.bitmap (16 * j + 15) = false :=
    fun j hfull => hfull.last
  have hplace : ∀ t j i, t.currPagesUsed ≤ 4 → j < t.currPagesUsed → Room t.bitmap r j i →
      place t r j i = some (.at (t.ptr j + i * 256), Ealloc.take t (16 * j + i) r) := by
    intro t j i ht hj hroom
    have hin := hroom.1
    exact if_neg (by omega)
  have ho := alloc_outcome w s r
  generalize alloc w (256 * r : Nat) s = o at ho ⊢
  cases ho with
  | @mapped j i hj hfull htakes =>
    rw [hpast] at htakes hfull
    have hroom := htakes.strict
    refine .inl ⟨⟨fun j₀ hj₀ hno => ?_, fun hno => absurd hroom (hno j i hj)⟩, s, j, i,
      hplace s j i hpages hj hroom, h, hj, hroom⟩
    have hlt : j₀ < j := by
      by_contra hge
      exact hno j i (by omega) hroom
    exact hlast j₀ (hfull j₀ hlt)
  | @leaves j hj hfull hleaves =>
    rw [hpast] at hfull hleaves
    refine .inr ⟨fun hs => ?_, .inl rfl⟩
    have htaken := hs.1 j hj fun j' i hj' => by
      by_cases heq : j' = j
      · rw [heq]
        exact hleaves.last.2 i
      · exact (hfull j' (by omega)).no_room hr i
    rw [hleaves.last.1] at htaken
    cases htaken
  | outOfPages hfull hcurr =>
    refine .inr ⟨fun hs => ?_, .inr rfl⟩
    have := (hs.2 fun j i hj => (hfull j hj).no_room hr i).1
    omega
  | mapFailed _ _ hfail => exact absurd hfail hmmap
  | @newTakes i hfull hcurr _ htakes =>
    rw [hpast] at htakes hfull
    have hroom := htakes.strict
    have hin := hroom.1
    have ht := h.grown hcurr hw hmmap
    refine .inl ⟨⟨fun j hj _ => hlast j (hfull j hj), fun _ => ⟨hcurr, by omega⟩⟩,
      Ealloc.grown w s, s.currPagesUsed, i, ?_, ht, Nat.lt_succ_self _, hroom⟩
    exact hplace _ _ _ ht.book.pages (Nat.lt_succ_self _) hroom
  | newFull _ hcurr _ hfull =>
    -- a row that is not in use is not full
    rw [hpast] at hfull
    have htaken := hfull.last
    rw [h.unused (by omega) (by omega)] at htaken
    cases htaken
  | newLeaves hfull hcurr _ hleaves =>
    rw [hpast] at hleaves
    refine .inr ⟨fun hs => ?_, .inl rfl⟩
    have hsize := (hs.2 fun j i hj => (hfull j hj).no_room hr i).2
    refine hleaves.last.2 0 ⟨by omega, fun x hx => h.unused (by omega) (by omega)⟩

/-- A live block is given back inside its columns. -/
theorem dealloc (h : Paged s live) {pos : Int} (hpos : ∃ b ∈ live, b.pos = pos) :
    ∃ s', Ealloc.dealloc pos s = some s' ∧ Paged s' (dropped live pos) ∧
      0 ≤ (pos - s.ptr (pageOf pos s)).tdiv 256 ∧
      (pos - s.ptr (pageOf pos s)).tdiv 256 + s.howMany (16 * pageOf pos s +
        ((pos - s.ptr (pageOf pos s)).tdiv 256).toNat) ≤ 16 := by
  obtain ⟨l₁, c, l₂, hlive, hb, hdrop, hc, hcpos, -, ⟨hpage, hchunk, hcount⟩, hrun, hbook⟩ :=
    h.book.dealloc hpos
  have hmem : blockAt s.ptr c ∈ live := by
    rw [hlive]
    exact List.mem_append_right _ List.mem_cons_self
  have hin := h.book.apart.inRow hc hcpos (h.inPage _ hmem)
  refine ⟨_, hrun, ⟨by rwa [hdrop], h.mapped, fun b hb => ?_⟩, ?_⟩
  · apply h.inPage b
    exact List.mem_of_mem_eraseP hb
  · rw [hpage, hchunk, Int.toNat_natCast, show 16 * (c.1 / 16) + c.1 % 16 = c.1 by omega, hcount]
    omega

end Paged

/-! ## The law -/

/-- The calls the law is about: requests for a positive multiple of 256 that meet a fresh page,
    and `dealloc` of live blocks. -/
def Allowed (s : PagedHeap × List Block) : Call World → Prop
  | .alloc w size => w.past = nonePast ∧ w.mmap ≠ -1 ∧ Fresh w s.1 ∧ 0 < size ∧ size % 256 = 0
  | .dealloc pos => ∃ b ∈ s.2, b.pos = pos
  | .store .. => True

/-- What the law says of a call: it needs no column outside its row, and whatever address the
    caller may see is that of a block inside one page and apart from the live ones. -/
def Kept (s : PagedHeap × List Block) : Call World → Prop
  | .alloc w size => ∃ ret s', alloc w size s.1 = some (ret, s') ∧ ∀ p, ret.MayBe p →
      InPage s' ⟨p, size⟩ ∧ ∀ b ∈ s.2, Block.Disjoint ⟨p, size⟩ b
  | .dealloc pos => (∃ s', dealloc pos s.1 = some s') ∧
      0 ≤ (pos - s.1.ptr (pageOf pos s.1)).tdiv 256 ∧
      (pos - s.1.ptr (pageOf pos s.1)).tdiv 256 + s.1.howMany (16 * pageOf pos s.1 +
        ((pos - s.1.ptr (pageOf pos s.1)).tdiv 256).toNat) ≤ 16
  | .store .. => True

/-- Requests are sheltered. -/
def Safe (s : PagedHeap × List Block) : Call World → Prop
  | .alloc _ size => Sheltered s.1 (size / 256).toNat
  | _ => True

/-- A call keeps the law exactly if it is safe. -/
theorem Paged.kept_iff {s : PagedHeap × List Block} (h : Paged s.1 s.2) {c : Call World}
    (hc : Allowed s c) : Kept s c ↔ Safe s c := by
  cases c with
  | alloc w size =>
    obtain ⟨hpast, hmmap, hw, hpos, hmod⟩ := hc
    obtain ⟨r, hr, rfl, hchunks⟩ := chunks_eq hpos hmod
    simp only [Kept, Safe, hchunks]
    rcases h.alloc_sheltered hpast hmmap hw hr with ⟨hs, t, j, i, hrun, ht, hj, hroom⟩ |
      ⟨hs, hrun | hrun⟩
    · refine iff_of_true ⟨_, _, hrun, ?_⟩ hs
      rintro p rfl
      have htake := ht.take hr hj hroom
      exact ⟨htake.inPage _ List.mem_cons_self, (List.pairwise_cons.mp htake.pairwise).1⟩
    · refine iff_of_false ?_ hs
      rintro ⟨ret, s', hrun', -⟩
      rw [hrun] at hrun'
      cases hrun'
    · refine iff_of_false ?_ hs
      rintro ⟨ret, s', hrun', hall⟩
      obtain ⟨rfl, rfl⟩ := Prod.mk.inj (Option.some.inj (hrun.symm.trans hrun'))
      -- the garbage may be an address below every page
      obtain ⟨⟨j, hj, hlow, -⟩, -⟩ := hall 1 trivial
      have hhigh := (h.book.apart j hj).1
      simp only at hlow
      omega
  | dealloc pos =>
    obtain ⟨s', hrun, -, hcolumns⟩ := h.dealloc hc
    exact iff_of_true ⟨⟨s', hrun⟩, hcolumns⟩ trivial
  | store pos v => exact iff_of_true trivial trivial

/-- **The step lemma**: a call of the client that is safe keeps every block inside its page and
    apart from the others. -/
theorem Paged.step {s s' : PagedHeap × List Block} {e : Event World} (h : Paged s.1 s.2)
    (hc : Allowed s e.call) (hsafe : Safe s e.call) (hst : system.step s e s') :
    Paged s'.1 s'.2 := by
  obtain ⟨call, ret⟩ := e
  obtain ⟨hrun, hlive⟩ := hst
  rw [hlive]
  cases call with
  | alloc w size =>
    obtain ⟨hpast, hmmap, hw, hpos, hmod⟩ := hc
    obtain ⟨r, hr, rfl, hchunks⟩ := chunks_eq hpos hmod
    simp only [Safe, hchunks] at hsafe
    rcases h.alloc_sheltered hpast hmmap hw hr with ⟨-, t, j, i, hrun', ht, hj, hroom⟩ | ⟨hs, -⟩
    · obtain ⟨rfl, hs⟩ := Prod.mk.inj (Option.some.inj (hrun'.symm.trans hrun))
      rw [← hs]
      exact ht.take hr hj hroom
    · exact absurd hsafe hs
  | dealloc pos =>
    obtain ⟨s₁, hrun', hs₁, -⟩ := h.dealloc hc
    simp only [exec, hrun', Option.bind_eq_bind, Option.bind_some, Option.pure_def,
      Option.some.injEq, Prod.mk.injEq] at hrun
    obtain ⟨-, rfl⟩ := hrun
    exact hs₁
  | store pos v =>
    simp only [exec, Option.some.injEq, Prod.mk.injEq] at hrun
    obtain ⟨-, hs⟩ := hrun
    rw [← hs]
    exact ⟨h.book.withMem _, h.mapped, h.inPage⟩

/-- **The run lemma**: blocks are inside their pages wherever safe calls lead. -/
theorem Paged.of_reach {s : PagedHeap × List Block}
    (h : (system.guard fun s e => Allowed s e.call ∧ Safe s e.call).Reach s) : Paged s.1 s.2 := by
  refine Lts.Reach.invariant (I := fun s => Paged s.1 s.2) ?_ ?_ h
  · rintro s ⟨⟨s₀, hs⟩, hlive⟩
    rw [hlive, hs]
    exact ⟨Book.init s₀, fun j hj => absurd hj (Nat.not_lt_zero j),
      fun b hb => absurd hb List.not_mem_nil⟩
  · intro s e s' hs hst
    exact hs.step hst.1.1 hst.1.2 hst.2

/-- **Blocks stay inside their pages and apart** in every run whose requests are sheltered; and
    the next call keeps them so exactly if it is safe. -/
theorem blocks_apart_iff {s : PagedHeap × List Block}
    (h : (system.guard fun s e => Allowed s e.call ∧ Safe s e.call).Reach s) :
    (∀ b ∈ s.2, InPage s.1 b) ∧ s.2.Pairwise Block.Disjoint ∧
      ∀ c, Allowed s c → (Kept s c ↔ Safe s c) := by
  have hs := Paged.of_reach h
  exact ⟨hs.inPage, hs.pairwise, fun c hc => hs.kept_iff hc⟩

instance (s : PagedHeap × List Block) (c : Call World) : Decidable (Safe s c) :=
  match c with
  | .alloc _ size => inferInstanceAs (Decidable (Sheltered s.1 (size / 256).toNat))
  | .dealloc _ | .store .. => inferInstanceAs (Decidable True)

/-- Whether the call may be made, but for the columns outside a row. -/
def allows (s : PagedHeap × List Block) (c : Call World) : Bool :=
  match c with
  | .alloc w size => decide (w.mmap ≠ -1 ∧ (4096 ≤ w.mmap ∧ ∀ j < s.1.currPagesUsed,
      s.1.ptr j + 4096 ≤ w.mmap ∨ w.mmap + 4096 ≤ s.1.ptr j) ∧ 0 < size ∧ size % 256 = 0)
  | .dealloc pos => decide (∃ b ∈ s.2, b.pos = pos)
  | .store .. => true

theorem allowed_of_allows {s : PagedHeap × List Block} {c : Call World}
    (hpast : ∀ w size, c = .alloc w size → w.past = nonePast) (h : allows s c = true) :
    Allowed s c := by
  cases c with
  | alloc w size =>
    obtain ⟨hmmap, ⟨hlow, hapart⟩, hpos, hmod⟩ := of_decide_eq_true h
    exact ⟨hpast w size rfl, hmmap, .inr ⟨hlow, fun j hj => hapart j hj.1⟩, hpos, hmod⟩
  | dealloc pos => exact show ∃ b ∈ s.2, b.pos = pos from of_decide_eq_true h
  | store pos v => trivial

/-- A page in one block, and two blocks in a second page, the first of which is given back.  Its
    chunks are there for the next request; a request for a page is one too many. -/
theorem blocks_apart_iff_reuse : ∃ s,
    (system.guard fun s e => Allowed s e.call ∧ Safe s e.call).Reach s ∧
      s.2 = [⟨16896, 256⟩, ⟨8192, 4096⟩] ∧ s.2.Pairwise Block.Disjoint ∧
      Kept s (.alloc ⟨nonePast, 24576⟩ 512) ∧ ¬ Kept s (.alloc ⟨nonePast, 24576⟩ 4096) := by
  have hrun : (runGuarded (fun s c => allows s c && decide (Safe s c)) exec
      [.alloc ⟨nonePast, 8192⟩ 4096, .alloc ⟨nonePast, 16384⟩ 512, .alloc ⟨nonePast, 24576⟩ 256,
        .dealloc 16384] (newHeap, [])).map (fun s => (s.2,
          [allows s (.alloc ⟨nonePast, 24576⟩ 512), allows s (.alloc ⟨nonePast, 24576⟩ 4096)],
          [decide (Safe s (.alloc ⟨nonePast, 24576⟩ 512)),
            decide (Safe s (.alloc ⟨nonePast, 24576⟩ 4096))])) =
      some ([⟨16896, 256⟩, ⟨8192, 4096⟩], [true, true], [true, false]) := by decide +kernel
  obtain ⟨s, hs, hfacts⟩ := Option.map_eq_some_iff.mp hrun
  simp only [Prod.mk.injEq, List.cons.injEq, and_true, decide_eq_true_eq, decide_eq_false_iff_not]
    at hfacts
  obtain ⟨hlive, ⟨hallows, hallows'⟩, hsafe, hunsafe⟩ := hfacts
  have hreach : (system.guard fun s e => Allowed s e.call ∧ Safe s e.call).Reach s := by
    refine runGuarded_reach _ newHeap_reach (fun s e he hc => ?_) hs
    obtain ⟨hallows, hsafe⟩ := Bool.and_eq_true_iff.mp hc
    refine ⟨allowed_of_allows (fun w size hcall => ?_) hallows, of_decide_eq_true hsafe⟩
    rw [hcall] at he
    simp only [List.mem_cons, Call.alloc.injEq, reduceCtorEq, List.not_mem_nil, or_false] at he
    rcases he with ⟨rfl, -⟩ | ⟨rfl, -⟩ | ⟨rfl, -⟩
    · rfl
    · rfl
    · rfl
  obtain ⟨-, hapart, hnext⟩ := blocks_apart_iff hreach
  refine ⟨s, hreach, hlive, hapart, ?_, fun hkept => hunsafe ?_⟩
  · exact (hnext _ (allowed_of_allows (fun w size hcall => by cases hcall; rfl) hallows)).mpr hsafe
  · exact (hnext _ (allowed_of_allows (fun w size hcall => by cases hcall; rfl) hallows')).mp hkept

/-- One chunk is taken; a request for a whole page then reads the second row for its last chunk. -/
theorem blocks_apart_broken :
    ¬ ∀ s, (system.guard fun s e => Allowed s e.call).Reach s →
      (∀ b ∈ s.2, InPage s.1 b) ∧ s.2.Pairwise Block.Disjoint ∧ ∀ c, Allowed s c → Kept s c := by
  intro hall
  have hfirst : Allowed (newHeap, []) (.alloc ⟨nonePast, 8192⟩ 256) :=
    ⟨rfl, by decide, newHeap_fresh _ (by decide), by decide, by decide⟩
  have hreach : (system.guard fun s e => Allowed s e.call).Reach (oneTaken, [⟨8192, 256⟩]) :=
    .step (e := ⟨.alloc ⟨nonePast, 8192⟩ 256, .at 8192⟩) newHeap_reach ⟨hfirst, rfl, rfl⟩
  have hsecond : Allowed (oneTaken, [⟨8192, 256⟩]) (.alloc ⟨nonePast, 16384⟩ 4096) :=
    ⟨rfl, by decide, oneTaken_fresh _ (by decide), by decide, by decide⟩
  obtain ⟨ret, s', hrun, -⟩ := (hall _ hreach).2.2 _ hsecond
  have hnone : alloc ⟨nonePast, 16384⟩ 4096 oneTaken = none := by rfl
  rw [hnone] at hrun
  cases hrun

end OsCodes.Malloc.Ealloc
