/-
  Who owns a chunk of `alloc.c` when requests of zero bytes are made.

  A request for no chunk is met at the first candidate, whatever its state: it is answered with
  the start of the page and leaves the arrays as they are (`alloc_zero`).  The block of another
  request may begin there.  `dealloc` knows a block by its address only, so giving back the
  empty request gives back that block (`not_releases`).  The system here says for which of the
  outstanding requests each `dealloc` is made.

  With `sized` the requests that have bytes are told from the others.  The invariant `Kept` says
  that the arrays describe the former, and that each of the latter has the start of the page.  So
  a `dealloc` for an empty request frees nothing exactly where no block of a request with bytes
  begins there, which is `Own`, a condition on the state before the call; `alloc_owner` has it as
  an equivalence for the next `dealloc` of every run whose earlier ones met it.
-/
import OsCodes.Malloc.AllocBounds

namespace OsCodes.Malloc.Alloc

/-! ## Requests -/

/-- What a client does: a request with its answer, a `dealloc` for one of its outstanding
    requests, a store of one byte. -/
inductive Move
  | alloc (past : Nat → Option Bool) (size : Int) (ret : Pointer)
  | dealloc (b : Block)
  | store (pos : Int) (v : UInt8)

/-- The call that is made, with what it returns. -/
def Move.event : Move → Event (Nat → Option Bool)
  | .alloc past size ret => ⟨.alloc past size, ret⟩
  | .dealloc b => ⟨.dealloc b.pos, .null⟩
  | .store pos v => ⟨.store pos v, .null⟩

/-- The outstanding requests after a move. -/
def outstanding (live : List Block) : Move → List Block
  | .alloc _ size ret => gained live size ret
  | .dealloc b => live.erase b
  | .store .. => live

/-- Runs of moves behind an `init_alloc` that succeeds. -/
def requests : Lts (Heap × List Block) Move :=
  Lts.withGhost
    { start := fun s => ∃ mmap s₀, mmap ≠ -1 ∧ initAlloc mmap s₀ = (0, s)
      step := fun s m s' => exec s m.event.call = some (m.event.ret, s') }
    [] fun _ live m => outstanding live m

/-- Requests for a non-negative multiple of 8 that fits the page, `dealloc` for outstanding
    requests, stores inside their blocks. -/
def Served (s : Heap × List Block) : Move → Prop
  | .alloc _ size _ => 0 ≤ size ∧ size ≤ 4096 ∧ size % 8 = 0
  | .dealloc b => b ∈ s.2
  | .store pos _ => ∃ b ∈ s.2, b.has pos = true

/-- `dealloc` for `b` frees chunks of `b` and sets bytes of `b`; the chunks of the other
    outstanding requests are in use behind it, and their bytes as they were. -/
structure Releases (s : Heap × List Block) (b : Block) (s' : Heap) : Prop where
  run : dealloc b.pos s.1 = some s'
  chunks : ∀ k : Nat, k < 512 → s'.bitmap k ≠ s.1.bitmap k → b.has (s.1.ptr + k * 8) = true
  bytes : ∀ a, s'.mem a ≠ s.1.mem a → b.has a = true
  inUse : ∀ b' ∈ s.2.erase b, ∀ k : Nat, k < 512 → b'.has (s.1.ptr + k * 8) = true →
    s'.bitmap k = false
  kept : ∀ b' ∈ s.2.erase b, ∀ a, b'.has a = true → s'.mem a = s.1.mem a

/-- Where the request was for no byte, no outstanding request with bytes has its address. -/
def Own (s : Heap × List Block) (b : Block) : Prop :=
  b.size = 0 → ∀ b' ∈ s.2, 0 < b'.size → b'.pos ≠ b.pos

/-- Runs whose every `dealloc` meets `Own`. -/
def Owning (s : Heap × List Block) (m : Move) : Prop :=
  Served s m ∧ ∀ b, m = .dealloc b → Own s b

/-! ## A request for no byte -/

/-- The first candidate is taken, and nothing changes. -/
theorem alloc_zero (past : Nat → Option Bool) (s : Heap) :
    alloc past 0 s = some (.at s.ptr, s) := by
  have hcount : Function.update s.howMany 0 (s.howMany 0 + 0) = s.howMany := by
    rw [Int.add_zero, Function.update_eq_self]
  show some (Pointer.at (s.ptr + 0), { s with
      howMany := Function.update s.howMany 0 (s.howMany 0 + 0)
      bitmap := markDown s.bitmap 0 0 }) = some (.at s.ptr, s)
  rw [hcount, Int.add_zero]
  rfl

/-! ## The invariant -/

/-- The requests with bytes: blocks that were asked for with size 0 are left out. -/
def sized (live : List Block) : List Block := live.filter fun b => 0 < b.size

theorem mem_sized {live : List Block} {b : Block} : b ∈ sized live ↔ b ∈ live ∧ 0 < b.size := by
  rw [sized, List.mem_filter, decide_eq_true_eq]

/-- The arrays describe the requests with bytes; the others have the start of the page. -/
structure Kept (s : Heap) (live : List Block) : Prop where
  sound : Sound s (sized live)
  empty : ∀ b ∈ live, ¬ 0 < b.size → b.size = 0 ∧ b.pos = s.ptr

namespace Kept

variable {s : Heap} {live : List Block}

/-- What `dealloc` takes from the list of the requests with bytes. -/
theorem sized_erase (live : List Block) (b : Block) : sized (live.erase b) = (sized live).erase b :=
  List.erase_filter.symm

/-- A chunk of an outstanding request is in use. -/
theorem inUse (h : Kept s live) {b : Block} (hb : b ∈ live) {k : Nat} (hk : k < 512)
    (hhas : b.has (s.ptr + k * 8) = true) : s.bitmap k = false := by
  have hsize : 0 < b.size := by
    rw [Block.has_iff] at hhas
    omega
  have hpos : 0 < (sized live).countP (Block.has (s.ptr + k * 8)) :=
    List.countP_pos_iff.mpr ⟨b, mem_sized.mpr ⟨hb, hsize⟩, hhas⟩
  rw [h.sound.cover hk] at hpos
  cases hfree : s.bitmap k with
  | false => rfl
  | true => rw [hfree, if_pos rfl] at hpos; cases hpos

/-- A request that is answered is outstanding. -/
theorem gain (h : Kept s live) {i r : Nat} (hr : 0 < r) (hroom : Room s.bitmap i r) :
    Kept { s with
      howMany := Function.update s.howMany i (s.howMany i + r)
      bitmap := markDown s.bitmap i r } (⟨s.ptr + i * 8, (8 * r : Nat)⟩ :: live) := by
  have hsize : 0 < ((8 * r : Nat) : Int) := by omega
  constructor
  · have hgain := h.sound.gain hr hroom
    rwa [sized, List.filter_cons_of_pos (by simpa using hsize)]
  · intro b hb hempty
    rcases List.mem_cons.mp hb with rfl | hb
    · exact absurd hsize hempty
    · exact h.empty b hb hempty

/-- A request for no byte is outstanding. -/
theorem gain_zero (h : Kept s live) : Kept s (⟨s.ptr, 0⟩ :: live) := by
  constructor
  · rw [sized, List.filter_cons_of_neg (by simp)]
    exact h.sound
  · intro b hb hempty
    rcases List.mem_cons.mp hb with rfl | hb
    · exact ⟨rfl, rfl⟩
    · exact h.empty b hb hempty

/-- **`dealloc`** for a request with bytes. -/
theorem dealloc_sized (h : Kept s live) {b : Block} (hb : b ∈ live) (hsize : 0 < b.size) :
    ∃ s', Releases (s, live) b s' ∧ Kept s' (live.erase b) := by
  have hmem : b ∈ sized live := mem_sized.mpr ⟨hb, hsize⟩
  obtain ⟨i, r, hin, hbeq, hrun⟩ := h.sound.dealloc_eq hmem
  obtain ⟨l₁, b₁, l₂, s', hlive, hpos, hdrop, hrun', hs', hptr, hbit⟩ :=
    h.sound.dealloc ⟨b, hmem, rfl⟩
  obtain rfl : b₁ = b := h.sound.pos_inj (by rw [hlive]; simp) hmem hpos
  have hkept : Kept s' (live.erase b₁) := by
    refine ⟨?_, fun b' hb' hempty => ?_⟩
    · rw [sized_erase, ← dropped_eq_erase fun x hx hpos => h.sound.pos_inj hx hmem hpos, hdrop]
      exact hs'
    · rw [hptr]
      exact h.empty b' (List.mem_of_mem_erase hb') hempty
  have hbytes : ∀ a, s'.mem a ≠ s.mem a → b₁.has a = true := by
    obtain rfl := Option.some.inj (hrun'.symm.trans hrun)
    intro a ha
    by_contra hno
    rw [Block.has_iff, hbeq] at hno
    refine ha (if_neg ?_)
    rw [hbeq]
    simp only at hno ⊢
    omega
  refine ⟨s', ⟨hrun', fun k hk hne => ?_, hbytes, fun b' hb' k hk hhas => ?_,
    fun b' hb' a hhas => ?_⟩, hkept⟩
  · rw [hbit k hk] at hne
    cases hhas : b₁.has (s.ptr + k * 8) with
    | true => rfl
    | false => rw [hhas, Bool.false_or] at hne; exact absurd rfl hne
  · exact hkept.inUse hb' hk (by rwa [hptr])
  · -- a byte of both blocks would be in one chunk of both
    by_contra hne
    have hhas₁ := hbytes a hne
    have hsize' : 0 < b'.size := by
      rw [Block.has_iff] at hhas
      omega
    obtain ⟨j, t, -, hbeq', -⟩ :=
      h.sound.dealloc_eq (mem_sized.mpr ⟨List.mem_of_mem_erase hb', hsize'⟩)
    rw [Block.has_iff, hbeq] at hhas₁
    rw [Block.has_iff, hbeq'] at hhas
    simp only at hhas hhas₁
    have hk : ((a - s.ptr) / 8).toNat < 512 := by omega
    have hfalse := hkept.inUse hb' hk (by
      rw [hptr, Block.has_iff, hbeq']
      simp only
      omega)
    rw [hbit _ hk, (Block.has_iff (b := b₁)).mpr (by rw [hbeq]; simp only; omega)] at hfalse
    cases hfalse

/-- The count at the start of the page where no request with bytes begins there. -/
theorem dealloc_none (h : Kept s live) (hown : ∀ b ∈ live, 0 < b.size → b.pos ≠ s.ptr) :
    dealloc s.ptr s = some s := by
  have hcount : s.howMany 0 = 0 := by
    refine (h.sound.count (by decide)).2 fun b hb => ?_
    obtain ⟨hb, hsize⟩ := mem_sized.mp hb
    have hne := hown b hb hsize
    omega
  have hmany : Function.update s.howMany 0 0 = s.howMany := by
    rw [← hcount, Function.update_eq_self]
  have hmem : memset s.mem s.ptr 0 = s.mem := by
    funext a
    exact if_neg (by omega)
  have hchunk : (s.ptr - s.ptr).tdiv 8 = 0 := by rw [Int.sub_self]; rfl
  simp only [dealloc, hchunk, Int.toNat_zero, hcount]
  rw [if_pos (by omega), if_neg (by omega), hmany]
  show some { s with mem := memset s.mem s.ptr 0 } = some s
  rw [hmem]

/-- **`dealloc`** for a request without bytes: nothing is released. -/
theorem dealloc_empty (h : Kept s live) {b : Block} (hb : b ∈ live) (hsize : ¬ 0 < b.size)
    (hown : Own (s, live) b) : ∃ s', Releases (s, live) b s' ∧ Kept s' (live.erase b) := by
  obtain ⟨hzero, hpos⟩ := h.empty b hb hsize
  rw [Own, hpos] at hown
  have hnot : b ∉ sized live := fun hmem => hsize (mem_sized.mp hmem).2
  refine ⟨s, ⟨by rw [hpos]; exact h.dealloc_none (hown hzero), fun k _ hne => absurd rfl hne,
    fun a hne => absurd rfl hne, fun b' hb' k hk hhas => ?_, fun _ _ _ _ => rfl⟩, ?_, ?_⟩
  · exact h.inUse (List.mem_of_mem_erase hb') hk hhas
  · rw [sized_erase, List.erase_of_not_mem hnot]
    exact h.sound
  · exact fun b' hb' hempty => h.empty b' (List.mem_of_mem_erase hb') hempty

/-- The block that begins at the address goes with a request without bytes. -/
theorem not_releases (h : Kept s live) {b : Block} (hb : b ∈ live) (hown : ¬ Own (s, live) b)
    (s' : Heap) : ¬ Releases (s, live) b s' := by
  intro hrel
  unfold Own at hown
  push Not at hown
  obtain ⟨hzero, b', hb', hsize', hpos'⟩ := hown
  have hpos := (h.empty b hb (by omega)).2
  have hmem : b' ∈ sized live := mem_sized.mpr ⟨hb', hsize'⟩
  have hhas : b'.has (s.ptr + (0 : Nat) * 8) = true := by
    rw [Block.has_iff]
    omega
  obtain ⟨l₁, b₁, l₂, s₁, hlive, hpos₁, -, hrun, -, -, hbit⟩ := h.sound.dealloc ⟨b', hmem, hpos'⟩
  obtain rfl : b₁ = b' := h.sound.pos_inj (by rw [hlive]; simp) hmem (hpos₁.trans hpos'.symm)
  obtain rfl := Option.some.inj (hrun.symm.trans hrel.run)
  have hne : b₁ ≠ b := by
    rintro rfl
    omega
  have huse := hrel.inUse b₁ ((List.mem_erase_of_ne hne).mpr hb') 0 (by decide) hhas
  rw [hbit 0 (by decide), hhas] at huse
  cases huse

theorem releases_iff (h : Kept s live) {b : Block} (hb : b ∈ live) :
    (∃ s', Releases (s, live) b s') ↔ Own (s, live) b := by
  constructor
  · rintro ⟨s', hrel⟩
    by_contra hown
    exact h.not_releases hb hown s' hrel
  · intro hown
    by_cases hsize : 0 < b.size
    · obtain ⟨s', hrel, -⟩ := h.dealloc_sized hb hsize
      exact ⟨s', hrel⟩
    · obtain ⟨s', hrel, -⟩ := h.dealloc_empty hb hsize hown
      exact ⟨s', hrel⟩

end Kept

/-! ## Runs -/

/-- **The step lemma**: the books are kept where no empty block is given back through the address of
    another. -/
theorem Kept.step {s s' : Heap × List Block} {m : Move} (h : Kept s.1 s.2) (hm : Owning s m)
    (hst : requests.step s m s') : Kept s'.1 s'.2 := by
  obtain ⟨hrun, hlive⟩ := hst
  obtain ⟨hserved, hown⟩ := hm
  rw [hlive]
  cases m with
  | alloc past size ret =>
    obtain ⟨hnn, -, hmod⟩ := hserved
    have hrun : alloc past size s.1 = some (ret, s'.1) := hrun
    rcases Int.lt_or_eq_of_le hnn with hpos | rfl
    · rcases alloc_outcomes past size s.1 with ⟨i, r, rfl, hroom, hrun'⟩ | hrun' | hrun'
      · obtain ⟨rfl, hs⟩ := Prod.mk.inj (Option.some.inj (hrun'.symm.trans hrun))
        rw [← hs]
        exact h.gain (by omega) hroom
      · obtain ⟨rfl, hs⟩ := Prod.mk.inj (Option.some.inj (hrun'.symm.trans hrun))
        rw [← hs]
        exact h
      · rw [hrun'] at hrun
        cases hrun
    · obtain ⟨rfl, hs⟩ := Prod.mk.inj (Option.some.inj ((alloc_zero past s.1).symm.trans hrun))
      rw [← hs]
      exact h.gain_zero
  | dealloc b =>
    obtain ⟨s₁, hdealloc, hrun⟩ := Option.bind_eq_some_iff.mp hrun
    obtain ⟨-, rfl⟩ := Prod.mk.inj (Option.some.inj hrun)
    have hb : b ∈ s.2 := hserved
    have hrel : ∃ t, Releases s b t ∧ Kept t (s.2.erase b) := by
      by_cases hsize : 0 < b.size
      · exact h.dealloc_sized hb hsize
      · exact h.dealloc_empty hb hsize (hown b rfl)
    obtain ⟨t, hrel, hkept⟩ := hrel
    obtain rfl := Option.some.inj (hrel.run.symm.trans hdealloc)
    exact hkept
  | store pos v =>
    obtain ⟨-, hs⟩ := Prod.mk.inj (Option.some.inj hrun)
    obtain ⟨b, hb, hhas⟩ := hserved
    have hsize : 0 < b.size := by
      rw [Block.has_iff] at hhas
      omega
    rw [← hs]
    exact ⟨h.sound.store ⟨b, mem_sized.mpr ⟨hb, hsize⟩, hhas⟩, h.empty⟩

/-- **The run lemma**: the books are kept in every run of such moves. -/
theorem Kept.of_reach {s : Heap × List Block} (h : (requests.guard Owning).Reach s) :
    Kept s.1 s.2 := by
  refine Lts.Reach.invariant (I := fun s => Kept s.1 s.2) ?_ ?_ h
  · rintro s ⟨⟨mmap, s₀, hmmap, hinit⟩, hlive⟩
    rw [hlive]
    exact ⟨Sound.init hmmap hinit, fun b hb => absurd hb List.not_mem_nil⟩
  · intro s m s' hs hst
    exact hs.step hst.1 hst.2

/-- **Ownership in `alloc.c`.**  In every state that requests for any multiple of 8, the empty one
    included, and `dealloc`s that meet `Own` lead to, the chunks of the outstanding requests are
    in use, and a `dealloc` for one of them releases what that request was given and nothing
    else exactly when it meets `Own`. -/
theorem alloc_owner {s : Heap × List Block} (h : (requests.guard Owning).Reach s) :
    (∀ b ∈ s.2, ∀ k : Nat, k < 512 → b.has (s.1.ptr + k * 8) = true → s.1.bitmap k = false) ∧
    ∀ b ∈ s.2, (∃ s', Releases s b s') ↔ Own s b :=
  ⟨fun _ hb _ hk hhas => (Kept.of_reach h).inUse hb hk hhas,
    fun _ hb => (Kept.of_reach h).releases_iff hb⟩

/-- A block of one chunk, and an empty request behind it. -/
def shared : Heap × List Block :=
  ({ newHeap with
      howMany := Function.update newHeap.howMany 0 1
      bitmap := markDown newHeap.bitmap 0 1 }, [⟨4096, 0⟩, ⟨4096, 8⟩])

theorem shared_reach {ok : Heap × List Block → Move → Prop}
    (h : ∀ s size ret, 0 ≤ size → size ≤ 4096 → size % 8 = 0 →
      ok s (.alloc noneBehind size ret)) : (requests.guard ok).Reach shared := by
  refine .step (e := .alloc noneBehind 0 (.at 4096)) (s := (shared.1, [⟨4096, 8⟩])) ?_
    ⟨h _ _ _ (by decide) (by decide) (by decide), alloc_zero _ _, rfl⟩
  refine .step (e := .alloc noneBehind 8 (.at 4096)) (s := (newHeap, [])) ?_
    ⟨h _ _ _ (by decide) (by decide) (by decide), rfl, rfl⟩
  exact .start ⟨⟨4096, _, by decide, rfl⟩, rfl⟩

theorem alloc_owner_shared : ∃ s', Releases shared ⟨4096, 8⟩ s' := by
  have hreach : (requests.guard Owning).Reach shared :=
    shared_reach fun s size ret h0 h1 h2 => ⟨⟨h0, h1, h2⟩, fun b hb => by cases hb⟩
  exact ((alloc_owner hreach).2 ⟨4096, 8⟩ (by decide)).mpr fun hzero => absurd hzero (by decide)

/-- **The empty request's `dealloc`** gives the block behind its address back. -/
theorem alloc_owner_zero :
    ¬ ∀ s, (requests.guard Served).Reach s → ∀ b ∈ s.2, ∃ s', Releases s b s' := by
  intro h
  have hreach : (requests.guard Served).Reach shared :=
    shared_reach fun s size ret h0 h1 h2 => ⟨h0, h1, h2⟩
  obtain ⟨s', hrel⟩ := h shared hreach ⟨4096, 0⟩ (by decide)
  have hrun := hrel.run
  have huse := hrel.inUse ⟨4096, 8⟩ (by decide) 0 (by decide) (by decide)
  obtain rfl := Option.some.inj (hrun.symm.trans rfl)
  exact absurd huse (by decide)

end OsCodes.Malloc.Alloc
