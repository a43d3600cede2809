/-
  The laws of `alloc.c` over whole runs.

  `Sound` ties the two arrays and the page to the client's blocks: the arrays describe them
  (`Tiles`), and the bytes of free chunks are zero.  `alloc_cases` and `Sound.dealloc` say what
  the two calls do; the run laws follow.

  Three results about reachable states are assembled from these two lemmas:

  1. `first_fit_allocator`: the bitmap counts the live blocks of each chunk, the counts are the
     lengths of the blocks, a request gets the leftmost room and fails only where there is none,
     and giving all blocks back in any order restores the state behind `init_alloc`.  What lies
     behind the bitmap reads as in use here; `AllocBounds` has the other cases;
  2. `Sound.deallocAll`, the last part of it, by the induction of `Live`;
  3. `alloc_zeroed`: whatever the client has stored in its blocks, an answered request gets zeros,
     since `dealloc` clears a block before its chunks are free again.
-/
import OsCodes.Malloc.Alloc

namespace OsCodes.Malloc.Alloc

/-! ## One request -/

/-- `r` free chunks from `i` on, inside the array. -/
def Room (bitmap : Nat → Bool) (i r : Nat) : Prop :=
  i + r ≤ 512 ∧ ∀ x, x < r → bitmap (i + x) = true

/-- Where nothing behind the array reads as free, the search finds room. -/
theorem fits_iff_room {past : Nat → Option Bool} (hpast : ∀ k, past k ≠ some true)
    {bitmap : Nat → Bool} {i r : Nat} (hi : i < 512) :
    Fits (probe past bitmap) i r ↔ Room bitmap i r := by
  constructor
  · intro hf
    refine ⟨?_, fun x hx => ?_⟩
    · by_contra hlt
      have hx := hf (512 - i) (by omega)
      rw [probe, if_neg (by omega)] at hx
      exact hpast _ hx
    · have hp := hf x hx
      unfold probe at hp
      split at hp
      · exact Option.some.inj hp
      · exact absurd hp (hpast _)
  · rintro ⟨hin, hfree⟩ x hx
    rw [probe, if_pos (by omega), hfree x hx]

theorem tmod_eight (r : Nat) : ((8 * r : Nat) : Int).tmod 8 = 0 := by
  rw [Int.tmod_eq_emod_of_nonneg (by omega)]
  omega

theorem tdiv_eight (r : Nat) : ((8 * r : Nat) : Int).tdiv 8 = r := by
  rw [Int.tdiv_eq_ediv_of_nonneg (by omega)]
  omega

/-- **`alloc`** of `r > 0` chunks: the leftmost room, or `NULL` where there is none; a probe
    that must not leave the array may end the search. -/
theorem alloc_cases {past : Nat → Option Bool} (hpast : ∀ k, past k ≠ some true) (s : Heap)
    {r : Nat} (hr : 0 < r) :
    (∃ i, Room s.bitmap i r ∧ (∀ j, j < i → ¬ Room s.bitmap j r) ∧
      alloc past (8 * r : Nat) s = some (.at (s.ptr + i * 8), { s with
        howMany := Function.update s.howMany i (s.howMany i + r)
        bitmap := markDown s.bitmap i r })) ∨
    (alloc past (8 * r : Nat) s = some (.null, s) ∧ ∀ j, ¬ Room s.bitmap j r) ∨
    alloc past (8 * r : Nat) s = none ∧ ∃ k, 512 ≤ k ∧ past k = none := by
  have hblocked : ∀ j, j < 512 → Blocked (probe past s.bitmap) j r → ¬ Room s.bitmap j r :=
    fun j hj hb hroom => hb.not_fits ((fits_iff_room hpast hj).mpr hroom)
  simp only [alloc, tmod_eight, ne_eq, not_true, if_false, tdiv_eight]
  rcases firstFit_cases (probe past s.bitmap) r 512 0 with
    ⟨i, -, hi, hfit, hf, hall⟩ | ⟨hfit, hall⟩ | ⟨i, -, -, hfit, ⟨x, -, -, hnone⟩, -⟩
  · have hroom := (fits_iff_room hpast (by omega)).mp hf
    refine .inl ⟨i, hroom, fun j hj => hblocked j (by omega) (hall j (by omega) hj), ?_⟩
    have hin : ¬ 512 < i + r := by
      have := hroom.1
      omega
    rw [hfit]
    simp only [Option.bind_eq_bind, Option.bind_some, Int.toNat_natCast]
    rw [if_neg hin]
  · refine .inr (.inl ⟨by rw [hfit]; rfl, fun j hroom => ?_⟩)
    by_cases hj : j < 512
    · exact hblocked j hj (hall j (by omega) (by omega)) hroom
    · have := hroom.1
      omega
  · refine .inr (.inr ⟨by rw [hfit]; rfl, i + x, ?_⟩)
    unfold probe at hnone
    split at hnone
    · cases hnone
    · exact ⟨by omega, hnone⟩

/-! ## The invariant -/

/-- The block of `b.2` chunks at chunk `b.1`. -/
def blockAt (ptr : Int) (b : Nat × Nat) : Block := ⟨ptr + b.1 * 8, (8 * b.2 : Nat)⟩

/-- The arrays describe the client's blocks, and free chunks are zero. -/
structure Sound (s : Heap) (live : List Block) : Prop where
  tiles : ∃ blocks, live = blocks.map (blockAt s.ptr) ∧ Tiles 512 s.bitmap s.howMany blocks
  zero : ∀ k, k < 512 → s.bitmap k = true → ∀ a, s.ptr + k * 8 ≤ a → a < s.ptr + k * 8 + 8 →
    s.mem a = 0

namespace Sound

variable {s : Heap} {live : List Block}

/-- A request that was given chunks `i..i+r`. -/
theorem gain (h : Sound s live) {i r : Nat} (hr : 0 < r) (hroom : Room s.bitmap i r) :
    Sound { s with
      howMany := Function.update s.howMany i (s.howMany i + r)
      bitmap := markDown s.bitmap i r } (⟨s.ptr + i * 8, (8 * r : Nat)⟩ :: live) := by
  obtain ⟨blocks, hlive, ht⟩ := h.tiles
  constructor
  · refine ⟨(i, r) :: blocks, by rw [hlive]; rfl, ?_⟩
    refine ht.add hr hroom.1 (fun k hk hk' => ?_) (fun k => markDown_apply i k r s.bitmap) rfl
    have hx := hroom.2 (k - i) (by simp only at hk hk'; omega)
    rwa [show i + (k - i) = k by simp only at hk; omega] at hx
  · intro k hk hfree
    simp only [markDown_apply] at hfree
    split at hfree
    · cases hfree
    · exact h.zero k hk hfree

/-- What `dealloc` finds and does at a live block. -/
theorem dealloc_eq (h : Sound s live) {b : Block} (hb : b ∈ live) :
    ∃ i r : Nat, i + r ≤ 512 ∧ b = ⟨s.ptr + i * 8, (8 * r : Nat)⟩ ∧
      Alloc.dealloc b.pos s = some { s with
        howMany := Function.update s.howMany i 0
        mem := memset s.mem b.pos (r * 8)
        bitmap := freeUp s.bitmap i r } := by
  obtain ⟨blocks, hlive, ht⟩ := h.tiles
  rw [hlive] at hb
  obtain ⟨c, hc, rfl⟩ := List.mem_map.mp hb
  have hin := ht.inside c hc
  have hcpos := ht.pos c hc
  have hcount := ht.count c hc
  have hchunk : ((blockAt s.ptr c).pos - s.ptr).tdiv 8 = c.1 := by
    simp only [blockAt]
    rw [show s.ptr + (c.1 : Int) * 8 - s.ptr = ((8 * c.1 : Nat) : Int) by omega, tdiv_eight]
  have hfit : ¬ 512 < c.1 + c.2 := by omega
  have hbytes : ((c.2 : Int) * 8).toNat = c.2 * 8 := by omega
  refine ⟨c.1, c.2, hin, rfl, ?_⟩
  simp only [Alloc.dealloc, hchunk]
  rw [if_pos (by omega)]
  simp only [Int.toNat_natCast, hcount, if_neg hfit, hbytes]

/-- **`dealloc`** of a live block: its chunks are free and its bytes zero, the rest stays. -/
theorem dealloc (h : Sound s live) {pos : Int} (hpos : ∃ b ∈ live, b.pos = pos) :
    ∃ l₁ b l₂ s', live = l₁ ++ b :: l₂ ∧ b.pos = pos ∧ dropped live pos = l₁ ++ l₂ ∧
      Alloc.dealloc pos s = some s' ∧ Sound s' (l₁ ++ l₂) ∧ s'.ptr = s.ptr ∧
      ∀ k, k < 512 → s'.bitmap k = (b.has (s.ptr + k * 8) || s.bitmap k) := by
  obtain ⟨l₁, b, l₂, hsplit, hb, hdrop⟩ := dropped_split hpos
  obtain ⟨i, r, hin, hbeq, hrun⟩ := h.dealloc_eq (b := b) (by rw [hsplit]; simp)
  rw [hb] at hrun
  obtain ⟨blocks, hlive, ht⟩ := h.tiles
  refine ⟨_, _, _, _, hsplit, hb, hdrop, hrun, ⟨?_, ?_⟩, rfl, ?_⟩
  · -- the list splits at chunk level
    rw [hlive] at hsplit
    obtain ⟨m₁, m, rfl, rfl, hm⟩ := List.map_eq_append_iff.mp hsplit
    obtain ⟨c, m₂, rfl, hc, rfl⟩ := List.map_eq_cons_iff.mp hm
    have hci : c = (i, r) := by
      rw [hbeq] at hc
      simp only [blockAt, Block.mk.injEq] at hc
      exact Prod.ext (by simp only; omega) (by simp only; omega)
    refine ⟨m₁ ++ m₂, by rw [List.map_append], ?_⟩
    rw [hci] at ht
    exact ht.remove (fun k => freeUp_apply s.bitmap i k r) rfl
  · intro k hk hfree a ha ha'
    simp only [freeUp_apply] at hfree
    have hb' : s.ptr + i * 8 = pos := by rw [← hb, hbeq]
    have ha : s.ptr + k * 8 ≤ a := ha
    have ha' : a < s.ptr + k * 8 + 8 := ha'
    by_cases hc : i ≤ k ∧ k < i + r
    · exact memset_inside s.mem (by omega) (by omega)
    · rw [if_neg hc] at hfree
      exact memset_zero (h.zero k hk hfree a ha ha')
  · intro k _
    have hhas : b.has (s.ptr + k * 8) = true ↔ i ≤ k ∧ k < i + r := by
      rw [Block.has_iff, hbeq]
      simp only
      omega
    simp only [freeUp_apply]
    by_cases hc : i ≤ k ∧ k < i + r
    · rw [if_pos hc, hhas.mpr hc, Bool.true_or]
    · have hno : b.has (s.ptr + k * 8) = false := by
        rw [Bool.eq_false_iff]
        exact fun ht => hc (hhas.mp ht)
      rw [if_neg hc, hno, Bool.false_or]

/-- A store inside a live block is outside every free chunk. -/
theorem store (h : Sound s live) {pos : Int} {v : UInt8} (hpos : ∃ b ∈ live, b.has pos = true) :
    Sound { s with mem := Function.update s.mem pos v } live := by
  obtain ⟨blocks, hlive, ht⟩ := h.tiles
  refine ⟨⟨blocks, hlive, ht⟩, fun k hk hfree a ha ha' => ?_⟩
  have hne : a ≠ pos := by
    rintro rfl
    obtain ⟨b, hb, hhas⟩ := hpos
    rw [hlive] at hb
    obtain ⟨c, hc, rfl⟩ := List.mem_map.mp hb
    rw [Block.has_iff] at hhas
    simp only [blockAt] at hhas ha ha'
    have htaken := ht.taken hc (k := k) (by omega) (by omega)
    rw [htaken] at hfree
    cases hfree
  simp only [Function.update_of_ne hne]
  exact h.zero k hk hfree a ha ha'

theorem init {mmap : Int} {s₀ : Heap} (hmmap : mmap ≠ -1) (h : initAlloc mmap s₀ = (0, s)) :
    Sound s [] := by
  simp only [initAlloc, if_neg hmmap, Prod.mk.injEq, true_and] at h
  subst h
  refine ⟨⟨[], rfl, Tiles.empty (fun _ _ => rfl) fun _ _ => rfl⟩, fun k hk _ a ha ha' => ?_⟩
  have ha : mmap + k * 8 ≤ a := ha
  have ha' : a < mmap + k * 8 + 8 := ha'
  exact memset_inside s₀.mem (by omega) (by omega)

/-- How often a chunk is covered by the client's blocks. -/
theorem cover (h : Sound s live) {k : Nat} (hk : k < 512) :
    live.countP (Block.has (s.ptr + k * 8)) = if s.bitmap k then 0 else 1 := by
  obtain ⟨blocks, hlive, ht⟩ := h.tiles
  rw [hlive, List.countP_map, ← ht.cover k hk]
  refine List.countP_congr fun b _ => ?_
  rw [Function.comp_apply, Block.has_iff, Tiles.covers_iff]
  simp only [blockAt]
  omega

/-- The table of lengths in terms of the client's blocks. -/
theorem count (h : Sound s live) {i : Nat} (hi : i < 512) :
    (∀ b ∈ live, b.pos = s.ptr + i * 8 → s.howMany i * 8 = b.size) ∧
      ((∀ b ∈ live, b.pos ≠ s.ptr + i * 8) → s.howMany i = 0) := by
  obtain ⟨blocks, hlive, ht⟩ := h.tiles
  rw [hlive]
  constructor
  · intro b hb hpos
    obtain ⟨c, hc, rfl⟩ := List.mem_map.mp hb
    simp only [blockAt] at hpos ⊢
    obtain rfl : c.1 = i := by omega
    rw [ht.count c hc]
    omega
  · intro hno
    refine ht.rest i hi fun c hc heq => hno _ (List.mem_map.mpr ⟨c, hc, rfl⟩) ?_
    simp only [blockAt, heq]

/-- Two live blocks with one address are one block. -/
theorem pos_inj (h : Sound s live) {b b' : Block} (hb : b ∈ live) (hb' : b' ∈ live)
    (hpos : b.pos = b'.pos) : b = b' := by
  obtain ⟨blocks, hlive, ht⟩ := h.tiles
  rw [hlive] at hb hb'
  obtain ⟨c, hc, rfl⟩ := List.mem_map.mp hb
  obtain ⟨c', hc', rfl⟩ := List.mem_map.mp hb'
  have hpos : s.ptr + (c.1 : Int) * 8 = s.ptr + (c'.1 : Int) * 8 := hpos
  rw [ht.start_inj hc hc' (by omega)]

end Sound

/-! ## Clients -/

/-- Requests for a positive multiple of 8 with a probe behind the array that `behind` describes,
    `dealloc` of live blocks, and stores inside live blocks. -/
def Client (behind : Nat → Option Bool) (s : Heap × List Block)
    (e : Event (Nat → Option Bool)) : Prop :=
  match e.call with
  | .alloc past size => past = behind ∧ 0 < size ∧ size % 8 = 0
  | .dealloc pos => ∃ b ∈ s.2, b.pos = pos
  | .store pos _ => ∃ b ∈ s.2, b.has pos = true

theorem size_eq {size : Int} (hpos : 0 < size) (hmod : size % 8 = 0) :
    ∃ r : Nat, 0 < r ∧ size = (8 * r : Nat) := ⟨(size / 8).toNat, by omega, by omega⟩

/-- **The step lemma**: requests, `dealloc`s of live blocks and stores keep the books sound. -/
theorem Sound.step {behind : Nat → Option Bool} (hbehind : ∀ k, behind k ≠ some true)
    {s s' : Heap × List Block} {e : Event (Nat → Option Bool)} (h : Sound s.1 s.2)
    (hc : Client behind s e)
    (hst : system.step s e s') : Sound s'.1 s'.2 := by
  obtain ⟨call, ret⟩ := e
  obtain ⟨hrun, hlive⟩ := hst
  rw [hlive]
  cases call with
  | alloc past size =>
    obtain ⟨rfl, hpos, hmod⟩ := hc
    obtain ⟨r, hr, rfl⟩ := size_eq hpos hmod
    simp only [exec] at hrun
    rcases alloc_cases hbehind s.1 hr with ⟨i, hroom, -, hrun'⟩ | ⟨hrun', -⟩ | ⟨hrun', -⟩
    · obtain ⟨rfl, hs⟩ := Prod.mk.inj (Option.some.inj (hrun'.symm.trans hrun))
      rw [← hs]
      exact h.gain hr hroom
    · obtain ⟨rfl, hs⟩ := Prod.mk.inj (Option.some.inj (hrun'.symm.trans hrun))
      rw [← hs]
      exact h
    · rw [hrun'] at hrun
      cases hrun
  | dealloc pos =>
    obtain ⟨l₁, b, l₂, s₁, -, -, hdrop, hrun', hs, -⟩ := h.dealloc hc
    simp only [exec, hrun', Option.bind_eq_bind, Option.bind_some, Option.pure_def,
      Option.some.injEq, Prod.mk.injEq] at hrun
    obtain ⟨-, rfl⟩ := hrun
    simp only [after, hdrop]
    exact hs
  | store pos v =>
    simp only [exec, Option.some.injEq, Prod.mk.injEq] at hrun
    obtain ⟨-, hs⟩ := hrun
    rw [← hs]
    exact h.store hc

/-- **The run lemma**: the books are sound wherever such a client gets to. -/
theorem Sound.of_reach {behind : Nat → Option Bool} (hbehind : ∀ k, behind k ≠ some true)
    {s : Heap × List Block} (h : (system.guard (Client behind)).Reach s) : Sound s.1 s.2 := by
  refine Lts.Reach.invariant (I := fun s => Sound s.1 s.2) ?_ ?_ h
  · rintro s ⟨⟨mmap, s₀, hmmap, hinit⟩, hlive⟩
    rw [hlive]
    exact Sound.init hmmap hinit
  · intro s e s' hs hst
    exact hs.step hbehind hst.1 hst.2

/-! ## First fit with immediate coalescing -/

/-- The state behind `init_alloc`: all chunks free, no block, the page zero. -/
def AsNew (s : Heap) : Prop :=
  (∀ k, k < 512 → s.bitmap k = true) ∧ (∀ i, i < 512 → s.howMany i = 0) ∧
    ∀ a, s.ptr ≤ a → a < s.ptr + 4096 → s.mem a = 0

theorem Sound.asNew {s : Heap} (h : Sound s []) : AsNew s := by
  have hfree : ∀ k, k < 512 → s.bitmap k = true := by
    intro k hk
    have hc := h.cover hk
    cases hb : s.bitmap k with
    | true => rfl
    | false => rw [hb] at hc; cases hc
  refine ⟨hfree, fun i hi => (h.count hi).2 fun _ hb => absurd hb List.not_mem_nil, ?_⟩
  intro a ha ha'
  exact h.zero ((a - s.ptr) / 8).toNat (by omega) (hfree _ (by omega)) a (by omega) (by omega)

/-- Giving back all live blocks, in any order, restores the state behind `init_alloc`. -/
theorem Sound.deallocAll {s : Heap} {live : List Block} (h : Sound s live) {order : List Int}
    (hperm : order.Perm (live.map Block.pos)) :
    ∃ s', Malloc.deallocAll Alloc.dealloc order s = some s' ∧ AsNew s' ∧ s'.ptr = s.ptr := by
  have hstep : ∀ (t : Heap) (live' : List Block) (pos : Int), Sound t live' ∧ t.ptr = s.ptr →
      (∃ b ∈ live', b.pos = pos) →
      ∃ t', Alloc.dealloc pos t = some t' ∧ Sound t' (dropped live' pos) ∧ t'.ptr = s.ptr := by
    rintro t live' pos ⟨ht, hptr⟩ hpos
    obtain ⟨l₁, b, l₂, t', -, -, hdrop, hrun, ht', hptr', -⟩ := ht.dealloc hpos
    exact ⟨t', hrun, by rwa [hdrop], hptr'.trans hptr⟩
  obtain ⟨s', hrun, hs', hptr⟩ := deallocAll_ok hstep order ⟨h, rfl⟩ hperm
  exact ⟨s', hrun, hs'.asNew, hptr⟩

/-- What reads behind the bitmap as a chunk in use. -/
def inUseBehind : Nat → Option Bool := fun _ => some false

theorem inUseBehind_ne (k : Nat) : inUseBehind k ≠ some true := by
  intro h
  cases h

/-- Behind `init_alloc`, with the page at 4096. -/
def newHeap : Heap := (initAlloc 4096 ⟨fun _ => false, fun _ => 1, 0, fun _ => 1⟩).2

theorem newHeap_reach {ok : Heap × List Block → Event (Nat → Option Bool) → Prop} :
    (system.guard ok).Reach (newHeap, []) :=
  .start ⟨⟨4096, _, by decide, rfl⟩, rfl⟩

/-- **`alloc.c` is a first-fit allocator with immediate coalescing.**  In every state reached with
    probes behind the bitmap reading as in use: the bitmap counts the live blocks on each chunk
    and the table holds their lengths; a request gets the leftmost room, and `NULL` exactly when
    there is none; `dealloc` frees the chunks of its block and no others; and giving back all
    live blocks in any order restores the state behind `init_alloc`. -/
theorem first_fit_allocator {s : Heap × List Block}
    (h : (system.guard (Client inUseBehind)).Reach s) :
    (∀ k : Nat, k < 512 → (s.1.bitmap k = false ↔
        s.2.countP (Block.has (s.1.ptr + k * 8)) = 1)) ∧
    (∀ i : Nat, i < 512 → (∀ b ∈ s.2, b.pos = s.1.ptr + i * 8 → s.1.howMany i * 8 = b.size) ∧
        ((∀ b ∈ s.2, b.pos ≠ s.1.ptr + i * 8) → s.1.howMany i = 0)) ∧
    (∀ r : Nat, 0 < r → ∃ p s', alloc inUseBehind (8 * r : Nat) s.1 = some (p, s') ∧
        (p = .null ↔ ∀ i, ¬ Room s.1.bitmap i r) ∧
        (p ≠ .null → ∃ i : Nat, p = .at (s.1.ptr + i * 8) ∧ Room s.1.bitmap i r ∧
          ∀ j, j < i → ¬ Room s.1.bitmap j r)) ∧
    (∀ b ∈ s.2, ∃ s', dealloc b.pos s.1 = some s' ∧ ∀ k : Nat, k < 512 →
        (s'.bitmap k = true ↔ s.1.bitmap k = true ∨ b.has (s.1.ptr + k * 8) = true)) ∧
    ∀ order : List Int, order.Perm (s.2.map Block.pos) →
      ∃ s', deallocAll dealloc order s.1 = some s' ∧ AsNew s' ∧ s'.ptr = s.1.ptr := by
  have hs : Sound s.1 s.2 := Sound.of_reach inUseBehind_ne h
  refine ⟨fun k hk => ?_, fun i hi => hs.count hi, fun r hr => ?_, fun b hb => ?_,
    fun order hperm => hs.deallocAll hperm⟩
  · rw [hs.cover hk]
    cases s.1.bitmap k with
    | false => simp
    | true => simp
  · rcases alloc_cases inUseBehind_ne s.1 hr with
      ⟨i, hroom, hleft, hrun⟩ | ⟨hrun, hno⟩ | ⟨-, k, -, hnone⟩
    · refine ⟨_, _, hrun, ⟨fun hp => (by cases hp), fun hno => absurd hroom (hno i)⟩, fun _ => ?_⟩
      exact ⟨i, rfl, hroom, hleft⟩
    · exact ⟨_, _, hrun, ⟨fun _ => hno, fun _ => rfl⟩, fun hne => absurd rfl hne⟩
    · cases hnone
  · obtain ⟨l₁, b', l₂, s', hlive, hpos, -, hrun, -, -, hbit⟩ := hs.dealloc ⟨b, hb, rfl⟩
    refine ⟨s', hrun, fun k hk => ?_⟩
    -- the block found under the address is the block itself
    have hsame : b' = b := hs.pos_inj (by rw [hlive]; simp) hb hpos
    rw [hbit k hk, hsame, Bool.or_eq_true, or_comm]

/-- Two blocks are given back in the order in which they were taken. -/
theorem first_fit_allocator_twice :
    ∃ s, runCalls exec [.alloc inUseBehind 16, .alloc inUseBehind 8] (newHeap, []) = some s ∧
      ∃ s', deallocAll dealloc [4096, 4112] s.1 = some s' ∧ AsNew s' ∧ s'.ptr = s.1.ptr := by
  have hrun : (runCalls exec [.alloc inUseBehind 16, .alloc inUseBehind 8] (newHeap, [])).map
      Prod.snd = some [⟨4112, 8⟩, ⟨4096, 16⟩] := by decide
  obtain ⟨s, hs, hlive⟩ := Option.map_eq_some_iff.mp hrun
  have hreach : (system.guard (Client inUseBehind)).Reach s := by
    refine runCalls_reach _ newHeap_reach ?_ hs
    rintro s' ⟨call, ret⟩ he
    simp only [List.mem_cons, List.not_mem_nil, or_false] at he
    rcases he with rfl | rfl
    · exact ⟨rfl, by decide, by decide⟩
    · exact ⟨rfl, by decide, by decide⟩
  refine ⟨s, hs, (first_fit_allocator hreach).2.2.2.2 [4096, 4112] ?_⟩
  rw [hlive]
  exact List.Perm.swap 4112 4096 []

/-! ## Zeroed memory -/

/-- No probe behind the bitmap. -/
def noneBehind : Nat → Option Bool := fun _ => none

theorem noneBehind_ne (k : Nat) : noneBehind k ≠ some true := by
  intro h
  cases h

/-- **`alloc.c` hands out zeroed memory.**  In every run whose requests never probe behind the
    bitmap, whatever the client stored in its blocks, a request that is answered gets zeros. -/
theorem alloc_zeroed {s : Heap × List Block} (h : (system.guard (Client noneBehind)).Reach s)
    {size p : Int} {s' : Heap} (hpos : 0 < size) (hmod : size % 8 = 0)
    (hrun : alloc noneBehind size s.1 = some (.at p, s')) :
    ∀ a, p ≤ a → a < p + size → s'.mem a = 0 := by
  have hs : Sound s.1 s.2 := Sound.of_reach noneBehind_ne h
  obtain ⟨r, hr, rfl⟩ := size_eq hpos hmod
  intro a ha ha'
  rcases alloc_cases noneBehind_ne s.1 hr with
    ⟨i, hroom, -, hrun'⟩ | ⟨hrun', -⟩ | ⟨hrun', -⟩
  · obtain ⟨hp, hs'⟩ := Prod.mk.inj (Option.some.inj (hrun'.symm.trans hrun))
    obtain rfl := Pointer.at.inj hp
    have hin := hroom.1
    have hfree := hroom.2 ((a - (s.1.ptr + i * 8)) / 8).toNat (by omega)
    rw [← hs']
    exact hs.zero (i + ((a - (s.1.ptr + i * 8)) / 8).toNat) (by omega) hfree a (by omega) (by omega)
  · rw [hrun'] at hrun
    cases hrun
  · rw [hrun'] at hrun
    cases hrun

/-- A block is written, given back and handed out again. -/
theorem alloc_zeroed_reuse :
    ∃ s s', runCalls exec [.alloc noneBehind 8, .store 4096 7, .dealloc 4096] (newHeap, []) =
        some s ∧ alloc noneBehind 16 s.1 = some (.at 4096, s') ∧
      ∀ a, 4096 ≤ a → a < 4096 + (16 : Int) → s'.mem a = 0 := by
  have hreach₁ : (system.guard (Client noneBehind)).Reach (_, [⟨4096, 8⟩]) :=
    .step (e := ⟨.alloc noneBehind 8, .at 4096⟩) newHeap_reach
      ⟨⟨rfl, by decide, by decide⟩, rfl, rfl⟩
  have hreach₂ : (system.guard (Client noneBehind)).Reach (_, [⟨4096, 8⟩]) :=
    .step (e := ⟨.store 4096 7, .null⟩) hreach₁ ⟨⟨_, List.mem_cons_self, by decide⟩, rfl, rfl⟩
  have hreach₃ : (system.guard (Client noneBehind)).Reach (_, []) :=
    .step (e := ⟨.dealloc 4096, .null⟩) hreach₂ ⟨⟨_, List.mem_cons_self, rfl⟩, rfl, rfl⟩
  exact ⟨_, _, rfl, rfl, alloc_zeroed hreach₃ (by decide) (by decide) rfl⟩
end OsCodes.Malloc.Alloc
