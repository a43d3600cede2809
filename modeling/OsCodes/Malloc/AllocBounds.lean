/-
  Where the search of `alloc.c` looks.

  The inner loop reads `bitmap[i+x]` for every `x` below the request, whatever is left of the
  array behind candidate `i`.  It leaves the array where a free run that reaches the last chunk is
  too short and no run before it was long enough (`inside_iff`).  The pointers are right all the
  same: a request that is answered is answered inside the page (`alloc_outcomes`), also in runs
  with earlier requests that read too far.

  `Inside` asks of one call that it looks at entries of the array only and that the bytes of its
  answer are in the page.  A search that passes the end has no answer here unless `past` says what
  it finds, so a request is looked at twice: with nothing behind the array it must have a result,
  and with anything behind it the result is one of `alloc_outcomes`.  `alloc_inside` is the law of
  whole runs, in which earlier requests may have read too far, and `alloc_leaves_bitmap` the
  smallest run in which one does: one chunk is taken and a whole page is asked for.
-/
import OsCodes.Malloc.AllocLaw

namespace OsCodes.Malloc.Alloc

/-! ## The outcomes of any request -/

/-- What is in the way inside the array is a chunk in use. -/
theorem blocked_not_room {past : Nat → Option Bool} {bitmap : Nat → Bool} {i r : Nat}
    (h : Blocked (probe past bitmap) i r) : ¬ Room bitmap i r := by
  rintro ⟨hin, hfree⟩
  obtain ⟨x, hx, -, hfalse⟩ := h
  rw [probe, if_pos (by omega), hfree x hx] at hfalse
  cases hfalse

/-- Sizes are negative, odd, or a number of chunks. -/
theorem size_cases (size : Int) :
    size.tmod 8 ≠ 0 ∨ size.tmod 8 = 0 ∧ size < 0 ∨ ∃ r : Nat, size = (8 * r : Nat) := by
  rcases Int.lt_or_le size 0 with hneg | hnn
  · by_cases hmod : size.tmod 8 = 0
    · exact .inr (.inl ⟨hmod, hneg⟩)
    · exact .inl hmod
  · by_cases hmod : size.tmod 8 = 0
    · rw [Int.tmod_eq_emod_of_nonneg hnn] at hmod
      exact .inr (.inr ⟨(size / 8).toNat, by omega⟩)
    · exact .inl hmod

/-- A request for a negative number of chunks, or for no whole number of them. -/
theorem alloc_odd (past : Nat → Option Bool) (s : Heap) {size : Int}
    (h : size.tmod 8 ≠ 0 ∨ size.tmod 8 = 0 ∧ size < 0) : alloc past size s = some (.null, s) := by
  rcases h with hmod | ⟨hmod, hneg⟩
  · rw [alloc, if_pos hmod]
  · have hreq : size.tdiv 8 < 0 := by
      have hdiv := Int.mul_tdiv_add_tmod size 8
      omega
    rw [alloc, if_neg (fun h => h hmod)]
    simp only [firstFit_neg _ hreq, Option.bind_eq_bind, Option.bind_some]

/-- **`alloc`** of any size, whatever lies behind the array: chunks inside the array that were
    free, or `NULL`, or no result. -/
theorem alloc_outcomes (past : Nat → Option Bool) (size : Int) (s : Heap) :
    (∃ i r : Nat, size = (8 * r : Nat) ∧ Room s.bitmap i r ∧
      alloc past size s = some (.at (s.ptr + i * 8), { s with
        howMany := Function.update s.howMany i (s.howMany i + r)
        bitmap := markDown s.bitmap i r })) ∨
    alloc past size s = some (.null, s) ∨ alloc past size s = none := by
  rcases size_cases size with hodd | hodd | ⟨r, rfl⟩
  · exact .inr (.inl (alloc_odd past s (.inl hodd)))
  · exact .inr (.inl (alloc_odd past s (.inr hodd)))
  simp only [alloc, tmod_eight, ne_eq, not_true, if_false, tdiv_eight]
  rcases firstFit_cases (probe past s.bitmap) r 512 0 with
    ⟨i, -, hi, hfit, hf, -⟩ | ⟨hfit, -⟩ | ⟨i, -, -, hfit, -⟩
  · rw [hfit]
    simp only [Option.bind_eq_bind, Option.bind_some, Int.toNat_natCast]
    by_cases hin : 512 < i + r
    · -- what was found begins in the array and ends behind it
      exact .inr (.inr (if_pos hin))
    · refine .inl ⟨i, r, rfl, ⟨by omega, fun x hx => ?_⟩, if_neg hin⟩
      have hx := hf x hx
      rw [probe, if_pos (by omega)] at hx
      exact Option.some.inj hx
  · rw [hfit]
    exact .inr (.inl rfl)
  · rw [hfit]
    exact .inr (.inr rfl)

/-! ## Probes -/

/-- The call looks at and sets entries of the array only, and the bytes of a pointer that it
    hands back are in the page. -/
def Inside (s : Heap) (size : Int) : Prop :=
  ∃ p s', alloc noneBehind size s = some (p, s') ∧
    ∀ a, p = .at a → s.ptr ≤ a ∧ a + size ≤ s.ptr + 4096

/-- Somewhere the request fits, or the last chunk is in use. -/
def Stops (bitmap : Nat → Bool) (r : Nat) : Prop := bitmap 511 = true → ∃ i, Room bitmap i r

/-- A search that is refused has come to the free run at the end of the array, which is too
    short, and has found no room before it. -/
theorem refused_end {bitmap : Nat → Bool} {i r : Nat} (hi : i < 512)
    (h : Refused (probe noneBehind bitmap) i r)
    (hall : ∀ j, j < i → Blocked (probe noneBehind bitmap) j r) :
    bitmap 511 = true ∧ ∀ j, ¬ Room bitmap j r := by
  obtain ⟨x, hx, hf, hnone⟩ := h
  have hend : 512 ≤ i + x := by
    by_contra hlt
    rw [probe, if_pos (by omega)] at hnone
    cases hnone
  constructor
  · have hlast := hf (511 - i) (by omega)
    rw [probe, if_pos (by omega)] at hlast
    rw [← Option.some.inj hlast]
    congr 1
    omega
  · intro j hroom
    have hin := hroom.1
    rcases Nat.lt_or_ge j i with hj | hj
    · exact blocked_not_room (hall j hj) hroom
    · omega

/-- Where every candidate meets a chunk in use, the last chunk is one. -/
theorem blocked_end {bitmap : Nat → Bool} {r : Nat}
    (h : Blocked (probe noneBehind bitmap) 511 r) : bitmap 511 = false := by
  obtain ⟨x, hx, hf, hfalse⟩ := h
  unfold probe at hfalse
  split at hfalse
  · obtain rfl : x = 0 := by omega
    exact Option.some.inj hfalse
  · cases hfalse

/-- **The probes of one request** stay inside exactly if it ends at once, or something stops it. -/
theorem inside_iff (s : Heap) (size : Int) :
    Inside s size ↔ (0 < size → size % 8 = 0 → Stops s.bitmap (size / 8).toNat) := by
  have hnull : alloc noneBehind size s = some (.null, s) → Inside s size :=
    fun hrun => ⟨.null, s, hrun, fun a ha => by cases ha⟩
  rcases size_cases size with hodd | hodd | ⟨r, rfl⟩
  · refine ⟨fun _ hpos hmod => ?_, fun _ => hnull (alloc_odd _ s (.inl hodd))⟩
    rw [Int.tmod_eq_emod_of_nonneg (by omega)] at hodd
    exact absurd hmod hodd
  · exact ⟨fun _ hpos => by omega, fun _ => hnull (alloc_odd _ s (.inr hodd))⟩
  have hchunks : (((8 * r : Nat) : Int) / 8).toNat = r := by omega
  rw [hchunks]
  rcases Nat.eq_zero_or_pos r with rfl | hr
  · -- no chunk at all: the first candidate
    refine ⟨fun _ hpos => by omega, fun _ => ?_⟩
    refine ⟨.at (s.ptr + 0), _, rfl, fun a ha => ?_⟩
    have ha := Pointer.at.inj ha
    omega
  have hprobes := firstFit_cases (probe noneBehind s.bitmap) r 512 0
  rcases alloc_cases noneBehind_ne s hr with ⟨i, hroom, -, hrun⟩ | ⟨hrun, hno⟩ | ⟨hrun, -⟩
  · refine ⟨fun _ _ _ _ => ⟨i, hroom⟩, fun _ => ⟨_, _, hrun, fun a ha => ?_⟩⟩
    have ha := Pointer.at.inj ha
    have hin := hroom.1
    omega
  · refine ⟨fun _ _ _ hlast => ?_, fun _ => hnull hrun⟩
    -- the search came to the last candidate, which was in use
    simp only [alloc, tmod_eight, ne_eq, not_true, if_false, tdiv_eight] at hrun
    rcases hprobes with ⟨i, -, hi, -, hf, -⟩ | ⟨-, hall⟩ | ⟨i, -, -, hfit, -⟩
    · exact absurd ((fits_iff_room noneBehind_ne (by omega)).mp hf) (hno i)
    · rw [blocked_end (hall 511 (by omega) (by omega))] at hlast
      cases hlast
    · rw [hfit] at hrun
      cases hrun
  · constructor
    · rintro ⟨p, s', hin, -⟩
      rw [hrun] at hin
      cases hin
    · intro hstop
      simp only [alloc, tmod_eight, ne_eq, not_true, if_false, tdiv_eight] at hrun
      exfalso
      rcases hprobes with ⟨i, -, hi, hfit, hf, -⟩ | ⟨hfit, -⟩ | ⟨i, -, hi, -, hrefused, hall⟩
      · have hin := ((fits_iff_room noneBehind_ne (by omega)).mp hf).1
        rw [hfit] at hrun
        simp only [Option.bind_eq_bind, Option.bind_some, Int.toNat_natCast,
          if_neg (show ¬ 512 < i + r by omega)] at hrun
        cases hrun
      · rw [hfit] at hrun
        cases hrun
      · obtain ⟨hlast, hno⟩ := refused_end (by omega) hrefused fun j hj => hall j (by omega) hj
        obtain ⟨j, hroom⟩ := hstop (by omega) (by omega) hlast
        exact hno j hroom

/-! ## Runs -/

/-- Requests of any size with anything behind the array, `dealloc` of live blocks, and stores
    inside live blocks. -/
def Holder (s : Heap × List Block) (e : Event (Nat → Option Bool)) : Prop :=
  match e.call with
  | .alloc .. => True
  | .dealloc pos => ∃ b ∈ s.2, b.pos = pos
  | .store pos _ => ∃ b ∈ s.2, b.has pos = true

/-- The client's blocks are in the page. -/
def InPage (s : Heap × List Block) : Prop :=
  ∀ b ∈ s.2, s.1.ptr ≤ b.pos ∧ b.pos + b.size ≤ s.1.ptr + 4096

theorem dealloc_ptr {pos : Int} {s s' : Heap} (h : dealloc pos s = some s') : s'.ptr = s.ptr := by
  simp only [dealloc] at h
  split at h
  · split at h
    · cases h
    · rw [← Option.some.inj h]
  · cases h

theorem InPage.step {s s' : Heap × List Block} {e : Event (Nat → Option Bool)} (h : InPage s)
    (hst : system.step s e s') : InPage s' := by
  obtain ⟨call, ret⟩ := e
  obtain ⟨hrun, hlive⟩ := hst
  cases call with
  | alloc past size =>
    simp only [exec] at hrun
    rcases alloc_outcomes past size s.1 with ⟨i, r, hsize, hroom, hrun'⟩ | hrun' | hrun'
    · obtain ⟨hret, hs⟩ := Prod.mk.inj (Option.some.inj (hrun'.symm.trans hrun))
      have hret : ret = .at (s.1.ptr + i * 8) := hret.symm
      rw [hret] at hlive
      intro b hb
      rw [hlive] at hb
      rw [← hs]
      rcases List.mem_cons.mp hb with rfl | hb
      · have hin := hroom.1
        constructor
        · show s.1.ptr ≤ s.1.ptr + i * 8
          omega
        · show s.1.ptr + i * 8 + size ≤ s.1.ptr + 4096
          omega
      · exact h b hb
    · obtain ⟨hret, hs⟩ := Prod.mk.inj (Option.some.inj (hrun'.symm.trans hrun))
      have hret : ret = .null := hret.symm
      rw [hret] at hlive
      intro b hb
      rw [hlive] at hb
      rw [← hs]
      exact h b hb
    · rw [hrun'] at hrun
      cases hrun
  | dealloc pos =>
    obtain ⟨s₁, hdealloc, hrun⟩ := Option.bind_eq_some_iff.mp hrun
    obtain ⟨-, hs⟩ := Prod.mk.inj (Option.some.inj hrun)
    intro b hb
    rw [hlive] at hb
    rw [← hs, dealloc_ptr hdealloc]
    exact h b (List.mem_of_mem_eraseP hb)
  | store pos v =>
    obtain ⟨-, hs⟩ := Prod.mk.inj (Option.some.inj hrun)
    intro b hb
    rw [hlive] at hb
    rw [← hs]
    exact h b hb

/-- **The bounds of `alloc.c`.**  In every state that requests of any size and `dealloc`s of live
    blocks lead to, the blocks handed out are in the page, and the next request stays inside the
    array and the page exactly when it is not for a positive number of chunks, or the last chunk
    is in use, or there is room for it. -/
theorem alloc_inside {s : Heap × List Block} (h : (system.guard Holder).Reach s) :
    InPage s ∧ ∀ size : Int, Inside s.1 size ↔
      (0 < size → size % 8 = 0 → Stops s.1.bitmap (size / 8).toNat) := by
  refine ⟨Lts.Reach.invariant (I := InPage) ?_ ?_ h, inside_iff s.1⟩
  · rintro s ⟨-, hlive⟩ b hb
    rw [hlive] at hb
    exact absurd hb List.not_mem_nil
  · intro s e s' hs hst
    exact hs.step hst.2

/-- One chunk is taken, and the whole page is asked for. -/
theorem oneTaken_reach : (system.guard Holder).Reach
    ({ newHeap with
        howMany := Function.update newHeap.howMany 0 1
        bitmap := markDown newHeap.bitmap 0 1 }, [⟨4096, 8⟩]) :=
  .step (e := ⟨.alloc noneBehind 8, .at 4096⟩) newHeap_reach ⟨trivial, rfl, rfl⟩

/-- Of two blocks the first is given back: its chunk is there for the next request, and a request
    for the page runs over the end of the array. -/
theorem alloc_inside_freed : ∃ s, (system.guard Holder).Reach s ∧ s.2 = [⟨4104, 16⟩] ∧ InPage s ∧
    Inside s.1 8 ∧ ¬ Inside s.1 4096 := by
  have hrun : (runGuarded (fun s c => match c with
      | .dealloc pos => decide (∃ b ∈ s.2, b.pos = pos)
      | _ => true) exec [.alloc noneBehind 8, .alloc noneBehind 16, .dealloc 4096]
      (newHeap, [])).map (fun s => (s.2, [s.1.bitmap 0, s.1.bitmap 1, s.1.bitmap 511])) =
      some ([⟨4104, 16⟩], [true, false, true]) := by decide +kernel
  obtain ⟨s, hs, hfacts⟩ := Option.map_eq_some_iff.mp hrun
  simp only [Prod.mk.injEq, List.cons.injEq, and_true] at hfacts
  obtain ⟨hlive, hfirst, hsecond, hlast⟩ := hfacts
  have hreach : (system.guard Holder).Reach s := by
    refine runGuarded_reach _ newHeap_reach (fun s e he hc => ?_) hs
    obtain ⟨call, ret⟩ := e
    simp only [List.mem_cons, List.not_mem_nil, or_false] at he
    rcases he with rfl | rfl | rfl
    · trivial
    · trivial
    · exact show ∃ b ∈ s.2, b.pos = 4096 from of_decide_eq_true hc
  obtain ⟨hpage, hprobes⟩ := alloc_inside hreach
  refine ⟨s, hreach, hlive, hpage, (hprobes 8).mpr fun _ _ _ => ⟨0, by decide, fun x hx => ?_⟩,
    fun hin => ?_⟩
  · obtain rfl : x = 0 := by omega
    exact hfirst
  · -- the page has room for it at chunk 0 only, and chunk 1 is in use
    obtain ⟨i, hfit, hfree⟩ := (hprobes 4096).mp hin (by decide) (by decide) hlast
    have hfit : i + 512 ≤ 512 := hfit
    obtain rfl : i = 0 := by omega
    have hone : s.1.bitmap 1 = true := hfree 1 (by decide)
    rw [hone] at hsecond
    cases hsecond

/-- **Behind one block** a request for the page runs over the end of the array. -/
theorem alloc_leaves_bitmap :
    ¬ ∀ s, (system.guard Holder).Reach s → ∀ size, Inside s.1 size := by
  intro h
  have hstop := (inside_iff _ 4096).mp (h _ oneTaken_reach 4096) (by decide) (by decide)
  obtain ⟨i, hin, hfree⟩ := hstop rfl
  have hin : i + 512 ≤ 512 := hin
  obtain rfl : i = 0 := by omega
  have hfirst := hfree 0 (by decide)
  cases hfirst

end OsCodes.Malloc.Alloc
