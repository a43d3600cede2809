/-
  Requests to `ealloc.c` that fail.

  `Answer` lists what a request of any size can come to in terms of the rows that have no place
  for it.  The counter and the table of pages are set before the result of `mmap` is looked at, and
  a page is mapped before it is known that the request fits one: `Spoils` says, of the state
  before a request, when it is refused and yet changes them, or ends without a `return`.

  `Atomic` is the promise for one request: if it is refused because `mmap` failed or because of
  its size, the counter and the tables are as before, and whatever a request returns lies inside a
  page that `mmap` gave.  The invariant of the runs is `Rows`: at most four rows are in use and
  each has a page; it needs no books.  A refused request that has raised the counter leaves a row
  whose page is -1, and a later request is answered from it (`ealloc_not_atomic`).
-/
import OsCodes.Malloc.EallocBook

namespace OsCodes.Malloc.Ealloc

/-! ## A request of any size -/

/-- The search of row `j` finds nothing for a request of `size` bytes. -/
def NoPlace (w : World) (s : PagedHeap) (size : Int) (j : Nat) : Prop :=
  size < 0 ∨ Full w.past s.bitmap (size / 256).toNat j

/-- No row in use has a place. -/
def NoneInUse (w : World) (s : PagedHeap) (size : Int) : Prop :=
  ∀ j, j < s.currPagesUsed → NoPlace w s size j

/-- What a request comes to: a block, `NULL`, no value, or no result at all. -/
inductive Answer (w : World) (s : PagedHeap) (size : Int) : Option (Pointer × PagedHeap) → Prop
  | odd : size % 256 ≠ 0 → Answer w s size (some (.null, s))
  | inUse {o : Option (Pointer × PagedHeap)} : ¬ NoneInUse w s size →
      (∀ ret s', o = some (ret, s') → ∃ j i, j < s.currPagesUsed ∧ i < 16 ∧
        ret = .at (s.ptr j + (i : Nat) * 256) ∧ s'.ptr = s.ptr ∧
        s'.currPagesUsed = s.currPagesUsed) → Answer w s size o
  | outOfPages : size % 256 = 0 → NoneInUse w s size → 4 ≤ s.currPagesUsed →
      Answer w s size (some (.undefined, s))
  | mapFailed : size % 256 = 0 → NoneInUse w s size → s.currPagesUsed < 4 → w.mmap = -1 →
      Answer w s size (some (.null, mapPage w s))
  | newFull : size % 256 = 0 → NoneInUse w s size → s.currPagesUsed < 4 → w.mmap ≠ -1 →
      NoPlace w s size s.currPagesUsed → Answer w s size (some (.null, grown w s))
  | newPage {o : Option (Pointer × PagedHeap)} : NoneInUse w s size → s.currPagesUsed < 4 →
      w.mmap ≠ -1 → ¬ NoPlace w s size s.currPagesUsed →
      (∀ ret s', o = some (ret, s') → ∃ i < 16, ret = .at (w.mmap + (i : Nat) * 256) ∧
        s'.ptr = (mapPage w s).ptr ∧ s'.currPagesUsed = s.currPagesUsed + 1) → Answer w s size o

section Request

variable {w : World} {s : PagedHeap} {size : Int}

theorem noPlace_chunks {r j : Nat} :
    NoPlace w s (256 * r : Nat) j ↔ Full w.past s.bitmap r j := by
  have hchunks : (((256 * r : Nat) : Int) / 256).toNat = r := by omega
  rw [NoPlace, hchunks]
  exact or_iff_right (by omega)

theorem Takes.not_full {r j i : Nat} (h : Takes w.past s.bitmap r j i) :
    ¬ Full w.past s.bitmap r j := fun hfull => (hfull i h.col).not_fits h.fits

theorem Leaves.not_full {r j : Nat} (h : Leaves w.past s.bitmap r j) :
    ¬ Full w.past s.bitmap r j := by
  obtain ⟨i, hi, hrefused, -⟩ := h
  exact fun hfull => (hfull i hi).not_refused hrefused

/-- What a search that stops returns is in the row in which it stops. -/
theorem place_eq {t t' : PagedHeap} {r j i : Nat} {ret : Pointer}
    (h : place t r j i = some (ret, t')) :
    ret = .at (t.ptr j + i * 256) ∧ t'.ptr = t.ptr ∧ t'.currPagesUsed = t.currPagesUsed := by
  unfold place at h
  split at h
  · cases h
  · obtain ⟨hret, hs⟩ := Prod.mk.inj (Option.some.inj h)
    rw [← hret, ← hs]
    exact ⟨rfl, rfl, rfl⟩

/-- A negative request finds no place anywhere. -/
theorem scanRow_neg {t : PagedHeap} {req : Int} (hreq : req < 0) (j : Nat) :
    scanRow w req t j = some none := by
  rw [scanRow, firstFit_neg _ hreq]
  rfl

theorem scanMapped_neg {req : Int} (hreq : req < 0) :
    ∀ n j, scanMapped w req s n j = some none := by
  intro n
  induction n with
  | zero => exact fun j => rfl
  | succ n ih =>
    intro j
    rw [scanMapped, scanRow_neg hreq]
    exact ih (j + 1)

theorem alloc_neg (hmod : size % 256 = 0) (hneg : size < 0) : Answer w s size (alloc w size s) := by
  have hnone : NoneInUse w s size := fun _ _ => .inl hneg
  have hdiv := Int.mul_tdiv_add_tmod size 256
  have hdvd : size.tmod 256 = 0 := Int.tmod_eq_zero_of_dvd (Int.dvd_of_emod_eq_zero hmod)
  have hreq : size.tdiv 256 < 0 := by omega
  simp only [alloc, hdvd, ne_eq, not_true, if_false, scanMapped_neg hreq, scanRow_neg hreq,
    Option.bind_eq_bind, Option.bind_some]
  split
  · rename_i hcurr
    split
    · rename_i hmmap
      exact .mapFailed hmod hnone hcurr hmmap
    · rename_i hmmap
      exact .newFull hmod hnone hcurr hmmap (.inl hneg)
  · exact .outOfPages hmod hnone (by omega)

/-- **A request of any size** comes to one of the answers. -/
theorem alloc_answer (w : World) (s : PagedHeap) (size : Int) :
    Answer w s size (alloc w size s) := by
  by_cases hmod : size % 256 = 0
  · rcases Int.lt_or_le size 0 with hneg | hnn
    · exact alloc_neg hmod hneg
    · obtain ⟨r, rfl⟩ : ∃ r : Nat, size = (256 * r : Nat) := ⟨(size / 256).toNat, by omega⟩
      have hnone : ∀ {n}, (∀ j, j < n → Full w.past s.bitmap r j) →
          ∀ j, j < n → NoPlace w s (256 * r : Nat) j :=
        fun hfull j hj => noPlace_chunks.mpr (hfull j hj)
      have hsome : ∀ {j}, j < s.currPagesUsed → ¬ Full w.past s.bitmap r j →
          ¬ NoneInUse w s (256 * r : Nat) :=
        fun hj hno hall => hno (noPlace_chunks.mp (hall _ hj))
      have ho := alloc_outcome w s r
      generalize alloc w (256 * r : Nat) s = o at ho ⊢
      cases ho with
      | @mapped j i hj _ htakes =>
        refine .inUse (hsome hj htakes.not_full) fun ret s' hplace => ?_
        exact ⟨j, i, hj, htakes.col, place_eq hplace⟩
      | leaves hj _ hleaves =>
        exact .inUse (hsome hj hleaves.not_full) fun _ _ h => by cases h
      | outOfPages hfull hcurr => exact .outOfPages hmod (hnone hfull) hcurr
      | mapFailed hfull hcurr hmmap => exact .mapFailed hmod (hnone hfull) hcurr hmmap
      | @newTakes i hfull hcurr hmmap htakes =>
        refine .newPage (hnone hfull) hcurr hmmap
          (fun hno => htakes.not_full (noPlace_chunks.mp hno)) fun ret s' hplace => ?_
        obtain ⟨hret, hptr, hused⟩ := place_eq hplace
        refine ⟨i, htakes.col, ?_, hptr, hused⟩
        rw [hret]
        exact congrArg (fun p => Pointer.at (p + i * 256)) mapPage_ptr_new
      | newFull hfull hcurr hmmap hnew =>
        exact .newFull hmod (hnone hfull) hcurr hmmap (noPlace_chunks.mpr hnew)
      | newLeaves hfull hcurr hmmap hleaves =>
        exact .newPage (hnone hfull) hcurr hmmap
          (fun hno => hleaves.not_full (noPlace_chunks.mp hno)) fun _ _ h => by cases h
  · have hodd : size.tmod 256 ≠ 0 := fun h =>
      hmod (Int.emod_eq_zero_of_dvd (Int.dvd_of_tmod_eq_zero h))
    rw [alloc, if_pos hodd]
    exact .odd hmod

end Request

/-! ## Rows and pages -/

/-- At most four rows are in use, and each has a page. -/
structure Rows (s : PagedHeap) : Prop where
  pages : s.currPagesUsed ≤ 4
  mapped : ∀ j, j < s.currPagesUsed → Mapped s j

/-- The address is inside a page that `mmap` gave. -/
def InMapped (s : PagedHeap) (p : Int) : Prop := ∃ j, Mapped s j ∧ s.ptr j ≤ p ∧ p < s.ptr j + 4096

theorem exists_above (ptr : Nat → Int) : ∀ n, ∃ p : Int, ∀ j, j < n → ptr j + 4096 ≤ p := by
  intro n
  induction n with
  | zero => exact ⟨0, fun j hj => absurd hj (Nat.not_lt_zero j)⟩
  | succ n ih =>
    obtain ⟨p, hp⟩ := ih
    refine ⟨max p (ptr n + 4096), fun j hj => ?_⟩
    rcases Nat.lt_succ_iff_lt_or_eq.mp hj with hj | rfl
    · have hle := hp j hj
      omega
    · omega

/-- Where control leaves `alloc` without a `return`, the caller may see any address. -/
theorem exists_not_inMapped (s : PagedHeap) : ∃ p, ¬ InMapped s p := by
  obtain ⟨p, hp⟩ := exists_above s.ptr s.currPagesUsed
  refine ⟨p, ?_⟩
  rintro ⟨j, hj, -, hlt⟩
  have hle := hp j hj.1
  omega

theorem Rows.inMapped {s s' : PagedHeap} (h : Rows s) {j i : Nat} (hj : j < s.currPagesUsed)
    (hi : i < 16) (hptr : s'.ptr = s.ptr) (hcurr : s'.currPagesUsed = s.currPagesUsed) :
    InMapped s' (s.ptr j + (i : Nat) * 256) := by
  refine ⟨j, ⟨by rwa [hcurr], ?_⟩, ?_⟩
  · rw [hptr]
    exact (h.mapped j hj).2
  · rw [hptr]
    omega

theorem Rows.grown {w : World} {s : PagedHeap} (h : Rows s) (hcurr : s.currPagesUsed < 4)
    (hmmap : w.mmap ≠ -1) : Rows (grown w s) := ⟨hcurr, mapped_grown h.mapped hmmap⟩

/-- Rows in use are counted and looked up, no more. -/
theorem Rows.congr {s s' : PagedHeap} (h : Rows s) (hptr : s'.ptr = s.ptr)
    (hcurr : s'.currPagesUsed = s.currPagesUsed) : Rows s' := by
  refine ⟨by rw [hcurr]; exact h.pages, fun j hj => ⟨hj, ?_⟩⟩
  rw [hcurr] at hj
  rw [hptr]
  exact (h.mapped j hj).2

theorem dealloc_rows {pos : Int} {s s' : PagedHeap} (h : dealloc pos s = some s') :
    s'.ptr = s.ptr ∧ s'.currPagesUsed = s.currPagesUsed := by
  simp only [dealloc] at h
  split at h
  · split at h
    · cases h
    · rw [← Option.some.inj h]
      exact ⟨rfl, rfl⟩
  · cases h

/-! ## Refused requests -/

/-- No allocator of four pages can meet the request. -/
def Unusable (size : Int) : Prop := size % 256 ≠ 0 ∨ size < 0 ∨ 4096 < size

/-- Counter and tables are as they were. -/
def SameTables (s s' : PagedHeap) : Prop :=
  s'.currPagesUsed = s.currPagesUsed ∧ s'.ptr = s.ptr ∧ s'.bitmap = s.bitmap ∧
    s'.howMany = s.howMany

/-- A request that is refused because `mmap` failed or because of its size changes neither the
    counter nor a table, and whatever a request returns is inside a page that was mapped. -/
structure Atomic (w : World) (s : PagedHeap) (size : Int) : Prop where
  refused : ∀ s', alloc w size s = some (.null, s') → w.mmap = -1 ∨ Unusable size → SameTables s s'
  mapped : ∀ ret s' p, alloc w size s = some (ret, s') → ret.MayBe p → InMapped s' p

/-- A multiple of 256 for which no row in use has a place, where no row is left, or `mmap` fails,
    or the size is unusable and the new row has no place either. -/
def Spoils (w : World) (s : PagedHeap) (size : Int) : Prop :=
  size % 256 = 0 ∧ NoneInUse w s size ∧
    (4 ≤ s.currPagesUsed ∨ w.mmap = -1 ∨ Unusable size ∧ NoPlace w s size s.currPagesUsed)

/-- A page more is a change. -/
theorem not_sameTables {s s' : PagedHeap} (h : s'.currPagesUsed = s.currPagesUsed + 1) :
    ¬ SameTables s s' := by
  intro hsame
  have hcurr := hsame.1
  omega

theorem atomic_iff {w : World} {s : PagedHeap} {size : Int} (h : Rows s) :
    Atomic w s size ↔ ¬ Spoils w s size := by
  have hpages := h.pages
  have ho := alloc_answer w s size
  suffices hall : ∀ o, alloc w size s = o → Answer w s size o →
      (Atomic w s size ↔ ¬ Spoils w s size) from hall _ rfl ho
  intro o hrun ho
  cases ho with
  | odd hmod =>
    refine iff_of_true ⟨fun s' hnull _ => ?_, fun ret s' p hret hmay => ?_⟩ fun hs => hmod hs.1
    · obtain ⟨-, rfl⟩ := Prod.mk.inj (Option.some.inj (hrun.symm.trans hnull))
      exact ⟨rfl, rfl, rfl, rfl⟩
    · obtain ⟨rfl, -⟩ := Prod.mk.inj (Option.some.inj (hrun.symm.trans hret))
      exact hmay.elim
  | inUse hsome hplace =>
    refine iff_of_true ⟨fun s' hnull _ => ?_, fun ret s' p hret hmay => ?_⟩ fun hs => hsome hs.2.1
    · obtain ⟨j, i, -, -, hret, -⟩ := hplace _ _ (hrun.symm.trans hnull)
      cases hret
    · obtain ⟨j, i, hj, hi, rfl, hptr, hcurr⟩ := hplace _ _ (hrun.symm.trans hret)
      have hp : p = s.ptr j + (i : Nat) * 256 := hmay
      rw [hp]
      exact h.inMapped hj hi hptr hcurr
  | outOfPages hmod hnone hcurr =>
    refine iff_of_false (fun ha => ?_) fun hno => hno ⟨hmod, hnone, .inl hcurr⟩
    obtain ⟨p, hp⟩ := exists_not_inMapped s
    exact hp (ha.mapped _ _ p hrun trivial)
  | mapFailed hmod hnone hcurr hmmap =>
    refine iff_of_false (fun ha => ?_) fun hno => hno ⟨hmod, hnone, .inr (.inl hmmap)⟩
    exact not_sameTables rfl (ha.refused _ hrun (.inl hmmap))
  | newFull hmod hnone hcurr hmmap hnew =>
    constructor
    · rintro ha ⟨-, -, hfour | hfail | ⟨hsize, -⟩⟩
      · omega
      · exact hmmap hfail
      · exact not_sameTables rfl (ha.refused _ hrun (.inr hsize))
    · refine fun hno => ⟨fun s' hnull hwhy => ?_, fun ret s' p hret hmay => ?_⟩
      · rcases hwhy with hfail | hsize
        · exact absurd hfail hmmap
        · exact absurd ⟨hmod, hnone, .inr (.inr ⟨hsize, hnew⟩)⟩ hno
      · obtain ⟨rfl, -⟩ := Prod.mk.inj (Option.some.inj (hrun.symm.trans hret))
        exact hmay.elim
  | newPage hnone hcurr hmmap hnew hplace =>
    refine iff_of_true ⟨fun s' hnull _ => ?_, fun ret s' p hret hmay => ?_⟩ ?_
    · obtain ⟨i, -, hret, -⟩ := hplace _ _ (hrun.symm.trans hnull)
      cases hret
    · obtain ⟨i, hi, rfl, hptr, hcurr'⟩ := hplace _ _ (hrun.symm.trans hret)
      have hp : p = w.mmap + (i : Nat) * 256 := hmay
      have hin : InMapped s' ((grown w s).ptr s.currPagesUsed + (i : Nat) * 256) :=
        (h.grown hcurr hmmap).inMapped (Nat.lt_succ_self _) hi hptr hcurr'
      rw [hp]
      rwa [show (grown w s).ptr s.currPagesUsed = w.mmap from mapPage_ptr_new] at hin
    · rintro ⟨-, -, hfour | hfail | ⟨-, hno⟩⟩
      · omega
      · exact hmmap hfail
      · exact hnew hno

/-! ## Runs -/

/-- Any calls whose requests do not spoil the tables. -/
def Sober (s : PagedHeap × List Block) (e : Event World) : Prop :=
  match e.call with
  | .alloc w size => ¬ Spoils w s.1 size
  | .dealloc _ => True
  | .store .. => True

/-- **A request** that does not map in vain leaves every row in use a page. -/
theorem Rows.alloc {w : World} {s s' : PagedHeap} {size : Int} {ret : Pointer} (h : Rows s)
    (hno : w.mmap = -1 → ¬ Spoils w s size) (hrun : alloc w size s = some (ret, s')) :
    Rows s' := by
  have ho := alloc_answer w s size
  rw [hrun] at ho
  cases ho with
  | odd _ => exact h
  | inUse _ hplace =>
    obtain ⟨j, i, -, -, -, hptr, hcurr⟩ := hplace _ _ rfl
    exact h.congr hptr hcurr
  | outOfPages _ _ _ => exact h
  | mapFailed hmod hnone _ hmmap => exact absurd ⟨hmod, hnone, .inr (.inl hmmap)⟩ (hno hmmap)
  | newFull _ _ hcurr hmmap _ => exact h.grown hcurr hmmap
  | newPage _ hcurr hmmap _ hplace =>
    obtain ⟨i, -, -, hptr, hcurr'⟩ := hplace _ _ rfl
    exact (h.grown hcurr hmmap).congr hptr hcurr'

/-- **The step lemma**: the rows are in order after every call but a request that spoils
    the tables. -/
theorem Rows.step {s s' : PagedHeap × List Block} {e : Event World} (h : Rows s.1)
    (hno : ∀ w size, e.call = .alloc w size → w.mmap = -1 → ¬ Spoils w s.1 size)
    (hst : system.step s e s') : Rows s'.1 := by
  obtain ⟨call, ret⟩ := e
  obtain ⟨hrun, -⟩ := hst
  cases call with
  | alloc w size => exact h.alloc (hno w size rfl) hrun
  | dealloc pos =>
    obtain ⟨s₁, hdealloc, hrun⟩ := Option.bind_eq_some_iff.mp hrun
    obtain ⟨-, hs⟩ := Prod.mk.inj (Option.some.inj hrun)
    obtain ⟨hptr, hcurr⟩ := dealloc_rows hdealloc
    rw [← hs]
    exact h.congr hptr hcurr
  | store pos v =>
    obtain ⟨-, hs⟩ := Prod.mk.inj (Option.some.inj hrun)
    rw [← hs]
    exact h.congr rfl rfl

/-- **The run lemma**: the rows are in order in every run without such a request. -/
theorem Rows.of_reach {ok : PagedHeap × List Block → Event World → Prop}
    (hok : ∀ s e, ok s e → ∀ w size, e.call = .alloc w size → w.mmap = -1 → ¬ Spoils w s.1 size)
    {s : PagedHeap × List Block} (h : (system.guard ok).Reach s) : Rows s.1 := by
  refine Lts.Reach.invariant (I := fun s => Rows s.1) ?_ ?_ h
  · rintro s ⟨⟨s₀, hs⟩, -⟩
    rw [hs]
    exact ⟨Nat.zero_le 4, fun j hj => absurd hj (Nat.not_lt_zero j)⟩
  · intro s e s' hs hst
    exact hs.step (hok s e hst.1) hst.2

/-- **Failing requests of `ealloc.c`.**  In every state that calls of any kind lead to whose
    requests do not spoil the tables, the next request is atomic exactly when it does not spoil
    them either. -/
theorem ealloc_atomic {s : PagedHeap × List Block} (h : (system.guard Sober).Reach s) (w : World)
    (size : Int) : Atomic w s.1 size ↔ ¬ Spoils w s.1 size := by
  refine atomic_iff (Rows.of_reach (fun s e hok w size hc _ => ?_) h)
  obtain ⟨call, ret⟩ := e
  obtain rfl : call = .alloc w size := hc
  exact hok

/-- No column outside a row is read, and `mmap` fails. -/
def noPage : World := ⟨fun _ _ => none, -1⟩

/-- A request of up to a page does not spoil while a page is left and `mmap` succeeds. -/
theorem not_spoils_page {w : World} {s : PagedHeap} {size : Int} (hcurr : s.currPagesUsed < 4)
    (hmmap : w.mmap ≠ -1) (hneg : 0 ≤ size) (hlarge : size ≤ 4096) : ¬ Spoils w s size := by
  rintro ⟨hmod, -, hfour | hfail | ⟨hodd | hlow | hhigh, -⟩⟩
  · omega
  · exact hmmap hfail
  · exact hodd hmod
  · omega
  · omega

/-- Behind a request for a page, a request for no multiple of 256 is refused in good order, a
    request for a chunk is answered if `mmap` succeeds, and spoils the tables if it fails. -/
theorem ealloc_atomic_full : ∃ s, (system.guard Sober).Reach s ∧ s.2 = [⟨8192, 4096⟩] ∧
    Atomic noPage s.1 100 ∧ Atomic ⟨fun _ _ => none, 16384⟩ s.1 256 ∧ ¬ Atomic noPage s.1 256 := by
  have hrun : (runGuarded (fun s _ => decide (s.1.currPagesUsed < 4)) exec
      [.alloc ⟨fun _ _ => none, 8192⟩ 4096] (newHeap, [])).map
      (fun s => (s.1.currPagesUsed, s.2, (List.range 16).map s.1.bitmap)) =
      some (1, [⟨8192, 4096⟩], List.replicate 16 false) := by decide +kernel
  obtain ⟨s, hs, hfacts⟩ := Option.map_eq_some_iff.mp hrun
  simp only [Prod.mk.injEq] at hfacts
  obtain ⟨hcurr, hlive, hbitmap⟩ := hfacts
  have hreach : (system.guard Sober).Reach s := by
    refine runGuarded_reach _ newHeap_reach (fun s e he hc => ?_) hs
    obtain ⟨call, ret⟩ := e
    obtain rfl := List.mem_singleton.mp he
    exact not_spoils_page (of_decide_eq_true hc) (by decide) (by decide) (by decide)
  have hfull : NoneInUse noPage s.1 256 := by
    intro j hj
    right
    intro i hi
    obtain rfl : j = 0 := by omega
    have hmem : s.1.bitmap i ∈ (List.range 16).map s.1.bitmap :=
      List.mem_map_of_mem (List.mem_range.mpr hi)
    rw [hbitmap] at hmem
    refine ⟨0, by decide, fun y hy => absurd hy (Nat.not_lt_zero y), ?_⟩
    rw [probe, if_pos (by omega), Nat.mul_zero, Nat.zero_add, Nat.add_zero,
      List.eq_of_mem_replicate hmem]
  refine ⟨s, hreach, hlive, ?_, ?_, ?_⟩
  · exact (ealloc_atomic hreach noPage 100).mpr fun hs => absurd hs.1 (by decide)
  · exact (ealloc_atomic hreach _ 256).mpr
      (not_spoils_page (by omega) (by decide) (by decide) (by decide))
  · intro hatomic
    exact (ealloc_atomic hreach noPage 256).mp hatomic ⟨by decide, hfull, .inr (.inl rfl)⟩

/-- **Behind an `mmap` that failed** the counter is one more, and the next request is answered
    with the address -1. -/
theorem ealloc_not_atomic :
    (¬ ∀ s, system.Reach s → ∀ w size s', alloc w size s.1 = some (.null, s') →
      w.mmap = -1 ∨ Unusable size → SameTables s.1 s') ∧
    ¬ ∀ s, system.Reach s → ∀ w size ret s' p, alloc w size s.1 = some (ret, s') →
      ret.MayBe p → InMapped s' p := by
  have hstart : system.Reach (newHeap, []) := .start ⟨⟨_, rfl⟩, rfl⟩
  have hnext : system.Reach (mapPage noPage newHeap, []) :=
    .step (e := ⟨.alloc noPage 256, .null⟩) hstart ⟨rfl, rfl⟩
  constructor
  · intro h
    exact not_sameTables rfl (h _ hstart noPage 256 (mapPage noPage newHeap) rfl (.inl rfl))
  · intro h
    obtain ⟨j, ⟨hj, hne⟩, -⟩ := h _ hnext noPage 256 (.at (-1)) _ (-1) rfl rfl
    have hj : j < 1 := hj
    obtain rfl : j = 0 := by omega
    exact hne rfl

end OsCodes.Malloc.Ealloc
