/-
  Which blocks of `ealloc.c` are zero when they are handed out.

  `dealloc` clears eight bytes for a chunk of 256.  The invariant `Clean`, that free chunks are
  zero, survives a `dealloc` when the rest of the block is zero already (`Cleared`), and then
  every request gets zeros.

  The condition is one on the client: the last bytes of a block, those behind `8 * n` of its
  `256 * n`, are zero when it is given back.  `ealloc_zeroed` shows that it is enough in every
  run, and the two runs at the end that it is needed: after a store to the first byte the next
  owner of the chunk finds zeros, after a store to the ninth it finds the byte.
-/
import OsCodes.Malloc.EallocApart

namespace OsCodes.Malloc.Ealloc

/-- The books, every block inside its page, and free chunks zero. -/
structure Clean (s : PagedHeap) (live : List Block) : Prop where
  book : Book s live
  inPage : ∀ b ∈ live, InPage s b
  zero : ∀ k, k < 64 → Mapped s (k / 16) → s.bitmap k = true → ∀ a, chunkAt s.ptr k ≤ a →
    a < chunkAt s.ptr k + 256 → s.mem a = 0

/-- A block that starts in a row and lies in some page lies in the page of the row. -/
theorem Apart.row_of_inPage {s : PagedHeap} {r j i : Nat} (h : Apart s)
    (hj : j < s.currPagesUsed) (hr : 0 < r) (hi : i < 16)
    (hin : InPage s ⟨s.ptr j + i * 256, (256 * r : Nat)⟩) : Mapped s j ∧ i + r ≤ 16 := by
  obtain ⟨j', hj', hlow, hhigh⟩ := hin
  simp only at hlow hhigh
  obtain rfl : j = j' := h.unique (a := s.ptr j + i * 256) hj hj' (by omega) (by omega) hlow
    (by omega)
  exact ⟨hj', by omega⟩

namespace Clean

variable {w : World} {s : PagedHeap} {live : List Block}

theorem init (s₀ : PagedHeap) : Clean (initAlloc s₀) [] :=
  ⟨Book.init s₀, fun _ hb => absurd hb List.not_mem_nil,
    fun _ _ hk => absurd hk.1 (Nat.not_lt_zero _)⟩

/-- A row more, whose page is clear if it has one. -/
theorem mapPage (h : Clean s live) (hcurr : s.currPagesUsed < 4) (hw : Fresh w s)
    {mem : Int → UInt8} (hold : ∀ a, s.mem a = 0 → mem a = 0)
    (hnew : w.mmap ≠ -1 → ∀ a, w.mmap ≤ a → a < w.mmap + 4096 → mem a = 0) :
    Clean { mapPage w s with mem } live := by
  refine ⟨(h.book.mapPage hcurr hw).withMem mem, fun b hb => (h.inPage b hb).mapPage, ?_⟩
  intro k hk hrow hfree a ha ha'
  have ha : chunkAt (Ealloc.mapPage w s).ptr k ≤ a := ha
  have ha' : a < chunkAt (Ealloc.mapPage w s).ptr k + 256 := ha'
  rcases mapped_mapPage_cases (w := w) (s := s) hrow with ⟨hmapped, hptr⟩ | ⟨-, hmmap, hptr⟩
  · rw [chunkAt, hptr] at ha ha'
    exact hold a (h.zero k hk hmapped hfree a ha ha')
  · rw [chunkAt, hptr] at ha ha'
    exact hnew hmmap a (by omega) (by omega)

theorem mapFailed (h : Clean s live) (hcurr : s.currPagesUsed < 4) (hfail : w.mmap = -1) :
    Clean (Ealloc.mapPage w s) live :=
  h.mapPage hcurr (.inl hfail) (fun _ hz => hz) fun hmmap => absurd hfail hmmap

theorem grown (h : Clean s live) (hcurr : s.currPagesUsed < 4) (hw : Fresh w s) :
    Clean (grown w s) live :=
  h.mapPage hcurr hw (fun _ hz => memset_zero hz) fun _ _ ha ha' => memset_inside s.mem ha ha'

/-- Chunks taken inside one row: the block is zero. -/
theorem take (h : Clean s live) {r j i : Nat} (hr : 0 < r) (hj : Mapped s j)
    (hroom : Room s.bitmap r j i) :
    Clean (take s (16 * j + i) r) (⟨s.ptr j + i * 256, (256 * r : Nat)⟩ :: live) ∧
      ∀ a, s.ptr j + i * 256 ≤ a → a < s.ptr j + i * 256 + (256 * r : Nat) → s.mem a = 0 := by
  have hin := hroom.1
  have hrow : j < s.currPagesUsed := hj.1
  have hpages := h.book.pages
  refine ⟨⟨h.book.take hr hj (by omega) (by omega) hroom.2, fun b hb => ?_, ?_⟩, ?_⟩
  · rcases List.mem_cons.mp hb with rfl | hb
    · refine ⟨j, hj, ?_⟩
      show s.ptr j ≤ s.ptr j + (i : Int) * 256 ∧
        s.ptr j + (i : Int) * 256 + (256 * r : Nat) ≤ s.ptr j + 4096
      omega
    · exact h.inPage b hb
  · intro k hk hmapped hfree
    simp only [Ealloc.take, markDown_apply] at hfree
    split at hfree
    · cases hfree
    · exact h.zero k hk hmapped hfree
  · intro a ha ha'
    -- the chunk that the address is in
    obtain ⟨x, hx, hax, hax'⟩ : ∃ x : Nat, x < r ∧ s.ptr j + (i + x : Nat) * 256 ≤ a ∧
        a < s.ptr j + (i + x : Nat) * 256 + 256 :=
      ⟨((a - (s.ptr j + i * 256)) / 256).toNat, by omega, by omega, by omega⟩
    have hchunk := chunkAt_row s.ptr (j := j) (i := i + x) (by omega)
    refine h.zero (16 * j + (i + x)) (by omega) ?_ (hroom.2 x hx) a ?_ ?_
    · rwa [show (16 * j + (i + x)) / 16 = j by omega]
    · rwa [hchunk]
    · rwa [hchunk]

/-- A block given back whose bytes behind the cleared ones are zero. -/
theorem dealloc (h : Clean s live) {pos : Int} (hpos : ∃ b ∈ live, b.pos = pos)
    (hrest : ∀ b ∈ live, b.pos = pos → ∀ a, pos + 8 * (b.size / 256) ≤ a → a < pos + b.size →
      s.mem a = 0) :
    ∃ s', Ealloc.dealloc pos s = some s' ∧ Clean s' (dropped live pos) := by
  obtain ⟨l₁, c, l₂, hlive, hb, hdrop, hc, hcpos, hin, -, hrun, hbook⟩ := h.book.dealloc hpos
  have hmem : blockAt s.ptr c ∈ live := by
    rw [hlive]
    exact List.mem_append_right _ List.mem_cons_self
  have hrow := h.book.apart.inRow hc hcpos (h.inPage _ hmem)
  have hrest := hrest _ hmem hb
  refine ⟨_, hrun, by rwa [hdrop], fun b hb => h.inPage b (List.mem_of_mem_eraseP hb), ?_⟩
  intro k hk hmapped hfree a ha ha'
  simp only [Book.back, freeUp_apply] at hfree
  have ha : chunkAt s.ptr k ≤ a := ha
  have ha' : a < chunkAt s.ptr k + 256 := ha'
  show memset s.mem (chunkAt s.ptr c.1) (c.2 * 8) a = 0
  by_cases hk' : c.1 ≤ k ∧ k < c.1 + c.2
  · -- a chunk of the block: its first bytes are cleared, the others were zero
    rw [← hb] at hrest
    simp only [blockAt] at hrest
    have hchunk : chunkAt s.ptr k = chunkAt s.ptr c.1 + ((k - c.1 : Nat) : Int) * 256 := by
      rw [chunkAt, chunkAt, show k / 16 = c.1 / 16 by omega]
      omega
    by_cases hcleared : a < chunkAt s.ptr c.1 + (c.2 * 8 : Nat)
    · exact memset_inside s.mem (by omega) hcleared
    · exact memset_zero (hrest a (by omega) (by omega))
  · rw [if_neg hk'] at hfree
    exact memset_zero (h.zero k hk hmapped hfree a ha ha')

/-- A store inside a live block is outside every free chunk. -/
theorem store (h : Clean s live) {pos : Int} {v : UInt8} (hpos : ∃ b ∈ live, b.has pos = true) :
    Clean { s with mem := Function.update s.mem pos v } live := by
  refine ⟨h.book.withMem _, h.inPage, fun k hk hmapped hfree a ha ha' => ?_⟩
  have ha : chunkAt s.ptr k ≤ a := ha
  have ha' : a < chunkAt s.ptr k + 256 := ha'
  have hne : a ≠ pos := by
    rintro rfl
    obtain ⟨b, hb, hhas⟩ := hpos
    have hinPage := h.inPage b hb
    obtain ⟨blocks, hlive, ht, hblocks⟩ := h.book.tiles
    rw [hlive] at hb
    obtain ⟨c, hc, rfl⟩ := List.mem_map.mp hb
    have hrow := h.book.apart.inRow (hblocks c hc) (ht.pos c hc) hinPage
    rw [Block.has_iff] at hhas
    simp only [blockAt, chunkAt] at hhas ha ha'
    have hsame : c.1 / 16 = k / 16 := h.book.apart.unique (a := a) (hblocks c hc).1 hmapped
      (by omega) (by omega) (by omega) (by omega)
    rw [hsame] at hhas
    have htaken := ht.taken hc (k := k) (by omega) (by omega)
    exact Bool.false_ne_true (htaken.symm.trans hfree)
  show Function.update s.mem pos v a = 0
  rw [Function.update_of_ne hne]
  exact h.zero k hk hmapped hfree a ha ha'

end Clean

/-! ## The law -/

/-- The calls the law is about: requests for a multiple of 256 up to 4096 that are answered
    inside one page, whatever a read outside a row finds, `dealloc` of live blocks, and stores
    inside live blocks. -/
def Client (s : PagedHeap × List Block) (e : Event World) : Prop :=
  match e.call with
  | .alloc w size => Fresh w s.1 ∧ 0 < size ∧ size ≤ 4096 ∧ size % 256 = 0 ∧
      ∀ p, e.ret = .at p → InPage (mapPage w s.1) ⟨p, size⟩
  | .dealloc pos => ∃ b ∈ s.2, b.pos = pos
  | .store pos _ => ∃ b ∈ s.2, b.has pos = true

/-- A block that is given back is zero behind its first eight bytes for each chunk. -/
def Cleared (s : PagedHeap × List Block) : Call World → Prop
  | .dealloc pos => ∀ b ∈ s.2, b.pos = pos → ∀ a, pos + 8 * (b.size / 256) ≤ a →
      a < pos + b.size → s.1.mem a = 0
  | _ => True

/-- **A request** in a clean state: what is left is clean, and the block is zero. -/
theorem Clean.alloc {s s' : PagedHeap} {live : List Block} {w : World} {size : Int}
    {ret : Pointer} (h : Clean s live) (hc : Client (s, live) ⟨.alloc w size, ret⟩)
    (hrun : alloc w size s = some (ret, s')) :
    Clean s' (gained live size ret) ∧
      ∀ p, ret = .at p → ∀ a, p ≤ a → a < p + size → s'.mem a = 0 := by
  obtain ⟨hw, hpos, -, hmod, hin⟩ := hc
  obtain ⟨r, hr, rfl, -⟩ := chunks_eq hpos hmod
  have hnull : ∀ t, some (Pointer.null, t) = some (ret, s') → Clean t live →
      Clean s' (gained live (256 * r : Nat) ret) ∧
        ∀ p, ret = .at p → ∀ a, p ≤ a → a < p + (256 * r : Nat) → s'.mem a = 0 := by
    intro t ht hclean
    obtain ⟨rfl, rfl⟩ := Prod.mk.inj (Option.some.inj ht)
    exact ⟨hclean, fun p hp => by cases hp⟩
  -- the state in which the search stops has the row's page, and the block fits in it
  have hplace : ∀ t j i, Clean t live → j < t.currPagesUsed →
      j < (Ealloc.mapPage w s).currPagesUsed → t.ptr j = (Ealloc.mapPage w s).ptr j →
      Takes w.past t.bitmap r j i →
      place t r j i = some (ret, s') → Clean s' (gained live (256 * r : Nat) ret) ∧
        ∀ p, ret = .at p → ∀ a, p ≤ a → a < p + (256 * r : Nat) → s'.mem a = 0 := by
    intro t j i hclean hj hj' hptr htakes hp
    unfold place at hp
    split at hp
    · cases hp
    · obtain ⟨rfl, rfl⟩ := Prod.mk.inj (Option.some.inj hp)
      have hrow : Mapped (Ealloc.mapPage w s) j ∧ i + r ≤ 16 := by
        refine (h.book.apart.mapPage hw).row_of_inPage hj' hr htakes.col ?_
        rw [← hptr]
        exact hin _ rfl
      have hmapped : Mapped t j := ⟨hj, by rw [hptr]; exact hrow.1.2⟩
      obtain ⟨htake, hzero⟩ := hclean.take hr hmapped (htakes.room hrow.2)
      refine ⟨htake, fun p hp => ?_⟩
      obtain rfl := Pointer.at.inj hp
      exact hzero
  have ho := alloc_outcome w s r
  rw [hrun] at ho
  generalize hres : some (ret, s') = o at ho
  cases ho with
  | @mapped j i hj _ htakes =>
    exact hplace s j i h hj (Nat.lt_succ_of_lt hj) (mapPage_ptr hj).symm htakes hres.symm
  | leaves _ _ _ => cases hres
  | outOfPages _ _ =>
    obtain ⟨rfl, rfl⟩ := Prod.mk.inj (Option.some.inj hres)
    exact ⟨h, fun p hp => by cases hp⟩
  | mapFailed _ hcurr hfail => exact hnull _ hres.symm (h.mapFailed hcurr hfail)
  | @newTakes i _ hcurr _ htakes =>
    exact hplace (Ealloc.grown w s) _ i (h.grown hcurr hw) (Nat.lt_succ_self _)
      (Nat.lt_succ_self _) rfl htakes hres.symm
  | newFull _ hcurr _ _ => exact hnull _ hres.symm (h.grown hcurr hw)
  | newLeaves _ _ _ _ => cases hres

/-- **The step lemma**: free chunks stay all zeros where `dealloc` is called for blocks that it
    clears. -/
theorem Clean.step {s s' : PagedHeap × List Block} {e : Event World} (h : Clean s.1 s.2)
    (hc : Client s e) (hcleared : Cleared s e.call) (hst : system.step s e s') :
    Clean s'.1 s'.2 := by
  obtain ⟨call, ret⟩ := e
  obtain ⟨hrun, hlive⟩ := hst
  rw [hlive]
  cases call with
  | alloc w size => exact (h.alloc hc hrun).1
  | dealloc pos =>
    obtain ⟨s₁, hrun', hs₁⟩ := h.dealloc hc hcleared
    simp only [exec, hrun', Option.bind_eq_bind, Option.bind_some, Option.pure_def,
      Option.some.injEq, Prod.mk.injEq] at hrun
    obtain ⟨-, rfl⟩ := hrun
    exact hs₁
  | store pos v =>
    simp only [exec, Option.some.injEq, Prod.mk.injEq] at hrun
    obtain ⟨-, hs⟩ := hrun
    rw [← hs]
    exact h.store hc

/-- **The run lemma**: free chunks are all zeros wherever such calls lead. -/
theorem Clean.of_reach {s : PagedHeap × List Block}
    (h : (system.guard fun s e => Client s e ∧ Cleared s e.call).Reach s) : Clean s.1 s.2 := by
  refine Lts.Reach.invariant (I := fun s => Clean s.1 s.2) ?_ ?_ h
  · rintro s ⟨⟨s₀, hs⟩, hlive⟩
    rw [hlive, hs]
    exact Clean.init s₀
  · intro s e s' hs hst
    exact hs.step hst.1.1 hst.1.2 hst.2

/-- **Zeroed memory** in every run in which the blocks that are given back are zero behind the
    bytes that `dealloc` clears. -/
theorem ealloc_zeroed {s : PagedHeap × List Block}
    (h : (system.guard fun s e => Client s e ∧ Cleared s e.call).Reach s) {w : World}
    {size p : Int} {s' : PagedHeap} (hc : Client s ⟨.alloc w size, .at p⟩)
    (hrun : alloc w size s.1 = some (.at p, s')) :
    ∀ a, p ≤ a → a < p + size → s'.mem a = 0 :=
  ((Clean.of_reach h).alloc hc hrun).2 p rfl

/-- One chunk is taken, a byte of it is written, and it is given back. -/
def written (a : Int) : PagedHeap :=
  { oneTaken with mem := Function.update oneTaken.mem a 7 }

/-- And the block is freed again. -/
def writtenBack (a : Int) : PagedHeap := Book.back (written a) (0, 1)

section Example

variable {ok : PagedHeap × List Block → Event World → Prop}

theorem written_reach {a : Int} (h₁ : ok (newHeap, []) ⟨.alloc ⟨nonePast, 8192⟩ 256, .at 8192⟩)
    (h₂ : ok (oneTaken, [⟨8192, 256⟩]) ⟨.store a 7, .null⟩)
    (h₃ : ok (written a, [⟨8192, 256⟩]) ⟨.dealloc 8192, .null⟩) :
    (system.guard ok).Reach (writtenBack a, []) := by
  have hone : (system.guard ok).Reach (oneTaken, [⟨8192, 256⟩]) :=
    .step newHeap_reach ⟨h₁, rfl, rfl⟩
  have hwritten : (system.guard ok).Reach (written a, [⟨8192, 256⟩]) :=
    .step hone ⟨h₂, rfl, rfl⟩
  exact .step hwritten ⟨h₃, rfl, rfl⟩

theorem client_first : Client (newHeap, []) ⟨.alloc ⟨nonePast, 8192⟩ 256, .at 8192⟩ := by
  refine ⟨newHeap_fresh _ (by decide), by decide, by decide, by decide, ?_⟩
  rintro p hp
  obtain rfl := Pointer.at.inj hp
  exact ⟨0, ⟨by decide, by decide⟩, by decide, by decide⟩

/-- The chunk is handed out again. -/
theorem client_again (a : Int) :
    Client (writtenBack a, []) ⟨.alloc ⟨nonePast, 16384⟩ 256, .at 8192⟩ := by
  refine ⟨oneTaken_fresh _ (by decide), by decide, by decide, by decide, ?_⟩
  rintro p hp
  obtain rfl := Pointer.at.inj hp
  have hin : InPage oneTaken ⟨8192, 256⟩ := ⟨0, ⟨by decide, by decide⟩, by decide, by decide⟩
  exact InPage.mapPage (s := writtenBack a) hin

end Example

/-- The first byte was written: `dealloc` clears it. -/
theorem ealloc_zeroed_again :
    ∃ s', alloc ⟨nonePast, 16384⟩ 256 (writtenBack 8192) = some (.at 8192, s') ∧
      ∀ a, 8192 ≤ a → a < 8192 + (256 : Int) → s'.mem a = 0 := by
  refine ⟨take (writtenBack 8192) 0 1, rfl, ealloc_zeroed ?_ (client_again 8192) rfl⟩
  refine written_reach ⟨client_first, trivial⟩ ⟨⟨_, List.mem_cons_self, by decide⟩, trivial⟩
    ⟨⟨_, List.mem_cons_self, rfl⟩, ?_⟩
  intro b hb _ a ha ha'
  obtain rfl := List.mem_singleton.mp hb
  simp only at ha ha'
  show Function.update oneTaken.mem 8192 7 a = 0
  rw [Function.update_of_ne (by omega)]
  exact memset_inside (p := 8192) _ (by omega) (by omega)

/-- The ninth byte was written: it is still there. -/
theorem ealloc_zeroed_broken :
    ¬ ∀ s, (system.guard Client).Reach s → ∀ w size p s', Client s ⟨.alloc w size, .at p⟩ →
      alloc w size s.1 = some (.at p, s') → ∀ a, p ≤ a → a < p + size → s'.mem a = 0 := by
  intro hall
  have hreach : (system.guard Client).Reach (writtenBack 8200, []) :=
    written_reach client_first ⟨_, List.mem_cons_self, by decide⟩ ⟨_, List.mem_cons_self, rfl⟩
  have hzero := hall _ hreach _ 256 8192 (take (writtenBack 8200) 0 1) (client_again 8200) rfl
    8200 (by decide) (by decide)
  exact absurd hzero (by decide)

end OsCodes.Malloc.Ealloc
