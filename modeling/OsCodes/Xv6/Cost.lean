/-
  How many pages the functions on page directories take.

  A walk takes a page exactly for a page table that is missing, so the free pages and the page
  tables of a directory together stay the same (`room`), and mapping a range succeeds exactly when
  there is room for the page tables of its pages.  The lemmas here say nothing about errors; they go
  beside those of `PagingLaw`.

  `Takes s` is the specification of a mapping: it succeeds exactly when `room` is at least the
  number of page tables in `s` together with those there are, and leaves `room` as it was.  Since
  `span` turns a range of pages into a set of page tables, ranges compose by unions
  (`Takes.trans`, `span_cons`), and counting is left to the end: the kernel part takes 64 page
  tables (`spans_kmap`), so `setupkvm` takes 65 pages.
-/
import OsCodes.Xv6.PagingLaw

namespace OsCodes.Xv6

/-- The directory entries that lead to a page table. -/
def PgDir.tabs (d : PgDir) : Finset Nat := (Finset.Iio 1024).filter fun i => (d.table i).isSome

/-- A page table more. -/
theorem tabs_setPde {d : PgDir} {v : Nat} (hv : v < vpages) (pgtab : Nat) :
    (d.setPde v pgtab).tabs = insert (pdx v) d.tabs := by
  have hin : pdx v < 1024 := by
    have hlt : v < 0x100000 := hv
    show v / 1024 < 1024
    omega
  ext i
  rw [Finset.mem_insert, PgDir.tabs, PgDir.tabs, Finset.mem_filter, Finset.mem_filter]
  show i ∈ Finset.Iio 1024 ∧ (Function.update d.table (pdx v) (some pgtab) i).isSome ↔ _
  by_cases hi : i = pdx v
  · rw [hi, Function.update_self]
    exact ⟨fun _ => .inl rfl, fun _ => ⟨Finset.mem_Iio.mpr hin, rfl⟩⟩
  · rw [Function.update_of_ne hi]
    exact ⟨.inr, fun hor => hor.resolve_left hi⟩

theorem tabs_card_le (d : PgDir) : d.tabs.card ≤ 1024 :=
  (Finset.card_filter_le _ _).trans (Nat.le_of_eq (Nat.card_Iio 1024))

theorem mem_tabs {d : PgDir} {v : Nat} (hv : v < vpages) :
    pdx v ∈ d.tabs ↔ (d.table (pdx v)).isSome := by
  have hin : pdx v < 1024 := by
    have hlt : v < 0x100000 := hv
    show v / 1024 < 1024
    omega
  rw [PgDir.tabs, Finset.mem_filter]
  exact ⟨fun h => h.2, fun h => ⟨Finset.mem_Iio.mpr hin, h⟩⟩

end OsCodes.Xv6

namespace OsCodes.Paging

open Xv6

/-- The page tables for `n` pages from `v` on. -/
def span (v n : Nat) : Finset Nat := (Finset.Ico v (v + n)).image pdx

theorem span_zero (v : Nat) : span v 0 = ∅ := by
  rw [span, Nat.add_zero, Finset.Ico_self, Finset.image_empty]

theorem span_succ (v n : Nat) : span v (n + 1) = insert (pdx v) (span (v + 1) n) := by
  have hinsert : Finset.Ico v (v + (n + 1)) = insert v (Finset.Ico (v + 1) (v + 1 + n)) := by
    ext u
    rw [Finset.mem_insert, Finset.mem_Ico, Finset.mem_Ico]
    omega
  rw [span, span, hinsert, Finset.image_insert]

theorem span_one (v : Nat) : span v 1 = {pdx v} := by
  rw [span_succ, span_zero, insert_empty_eq]

theorem span_append (v m n : Nat) : span v (m + n) = span v m ∪ span (v + m) n := by
  have hunion : Finset.Ico v (v + (m + n)) =
      Finset.Ico v (v + m) ∪ Finset.Ico (v + m) (v + m + n) := by
    ext u
    rw [Finset.mem_union, Finset.mem_Ico, Finset.mem_Ico, Finset.mem_Ico]
    omega
  rw [span, span, span, hunion, Finset.image_union]

/-- The first page of a range, and the others. -/
theorem span_cons {i m : Nat} (h : i < m) :
    span i (m - i) = span i 1 ∪ span (i + 1) (m - (i + 1)) := by
  rw [← span_append]
  congr 1
  omega

/-- The page tables for the first `n` pages. -/
theorem span_first (n : Nat) : span 0 n = Finset.Iio ((n + 1023) / 1024) := by
  ext i
  rw [span, Finset.mem_image, Finset.mem_Iio]
  refine ⟨?_, fun hi => ⟨i * 1024, ?_, ?_⟩⟩
  · rintro ⟨u, hu, rfl⟩
    rw [Finset.mem_Ico] at hu
    show u / 1024 < (n + 1023) / 1024
    omega
  · rw [Finset.mem_Ico]
    omega
  · exact Nat.mul_div_cancel i (by decide)

/-- The page tables for pages that fill them. -/
theorem span_tables (i n : Nat) : span (1024 * i) (1024 * n) = Finset.Ico i (i + n) := by
  ext j
  rw [span, Finset.mem_image, Finset.mem_Ico]
  refine ⟨?_, fun hj => ⟨j * 1024, ?_, Nat.mul_div_cancel j (by decide)⟩⟩
  · rintro ⟨u, hu, rfl⟩
    rw [Finset.mem_Ico] at hu
    show i ≤ u / 1024 ∧ u / 1024 < i + n
    omega
  · rw [Finset.mem_Ico]
    omega

/-- Free pages and page tables: what is taken for tables is not lost from it. -/
def room (d : PgDir) (k : Kmem) : Nat := k.freelist.length + d.tabs.card

section Cost

variable {A : Allocator} {img : Image} {d : PgDir} {k : Kmem}

/-- What `kalloc` takes. -/
theorem kalloc_cost : Allows (fun _ => True) (A.kalloc k) fun r =>
    r.2.freelist.length + r.1.toList.length = k.freelist.length ∧
    (r.1 = none → k.freelist.length = 0) := by
  cases h : A.kalloc k with
  | error e => exact .stop trivial
  | ok r =>
    obtain ⟨hpop, hnone, -⟩ := A.pops h
    refine .ok ⟨?_, fun hr => by rw [hnone hr]; rfl⟩
    rw [hpop, List.length_append, Nat.add_comm]

/-- **`walkpgdir` with `alloc`** takes a page for a page table that is missing. -/
theorem walkpgdirAlloc_cost {v : Nat} (hv : v < vpages) :
    Allows (fun _ => True) (walkpgdirAlloc A d v k) fun r =>
      room r.2.1 r.2.2 = room d k ∧ (r.1 = true → r.2.1.tabs = insert (pdx v) d.tabs) ∧
      (r.1 = false → room d k < (insert (pdx v) d.tabs).card) := by
  unfold walkpgdirAlloc
  split
  case h_1 t ht =>
    have hin : pdx v ∈ d.tabs := (mem_tabs hv).mpr (by rw [ht]; rfl)
    exact .ok ⟨rfl, fun _ => (Finset.insert_eq_of_mem hin).symm, fun hno => by cases hno⟩
  case h_2 hnone =>
    have hnot : pdx v ∉ d.tabs := by
      rw [mem_tabs hv, hnone]
      exact Bool.false_ne_true
    apply kalloc_cost.bind
    rintro ⟨r, k₁⟩ ⟨hlen, hzero⟩
    cases r with
    | none =>
      refine .ok ⟨?_, fun hno => (by cases hno), fun _ => ?_⟩
      · have hlen : k₁.freelist.length + 0 = k.freelist.length := hlen
        show k₁.freelist.length + d.tabs.card = k.freelist.length + d.tabs.card
        omega
      · have hzero : k.freelist.length = 0 := hzero rfl
        rw [room, hzero, Finset.card_insert_of_notMem hnot]
        omega
    | some pgtab =>
      refine .ok ⟨?_, fun _ => tabs_setPde hv pgtab, fun hno => by cases hno⟩
      have hlen : k₁.freelist.length + 1 = k.freelist.length := hlen
      show k₁.freelist.length + (d.setPde v pgtab).tabs.card = k.freelist.length + _
      rw [tabs_setPde hv, Finset.card_insert_of_notMem hnot]
      omega

/-- Mapping succeeds when there is room for the page tables `s`, and only then. -/
structure Takes (s : Finset Nat) (d : PgDir) (k : Kmem) (mapped : Bool) (d' : PgDir) (k' : Kmem) :
    Prop where
  room_eq : room d' k' = room d k
  done : mapped = true → d'.tabs = d.tabs ∪ s
  failed : mapped = false → room d k < (d.tabs ∪ s).card

/-- Mapping after mapping. -/
theorem Takes.trans {s t : Finset Nat} {d₁ d₂ : PgDir} {k₁ k₂ : Kmem} {mapped : Bool}
    (h : Takes s d k true d₁ k₁) (h' : Takes t d₁ k₁ mapped d₂ k₂) :
    Takes (s ∪ t) d k mapped d₂ k₂ := by
  refine ⟨h'.room_eq.trans h.room_eq, fun hm => ?_, fun hm => ?_⟩
  · rw [h'.done hm, h.done rfl, Finset.union_assoc]
  · have hlt := h'.failed hm
    rwa [h.room_eq, h.done rfl, Finset.union_assoc] at hlt

/-- Failing early. -/
theorem Takes.fail {s t : Finset Nat} {d₁ : PgDir} {k₁ : Kmem} (h : Takes s d k false d₁ k₁) :
    Takes (s ∪ t) d k false d₁ k₁ := by
  refine ⟨h.room_eq, fun hno => (by cases hno), fun _ => (h.failed rfl).trans_le ?_⟩
  exact Finset.card_le_card (Finset.union_subset_union_right Finset.subset_union_left)

/-- The entries of the tables do not matter. -/
theorem Takes.setPte {s : Finset Nat} {d₁ : PgDir} {k₁ : Kmem} {mapped : Bool}
    (h : Takes s d k mapped d₁ k₁) (v : Nat) (x : Pte) :
    Takes s d k mapped (d₁.setPte v x) k₁ := ⟨h.room_eq, h.done, h.failed⟩

/-- **`mappages`** takes the page tables of its pages. -/
theorem mappages_cost {perm : Perm} : ∀ {n v pa : Nat} {d : PgDir} {k : Kmem}, v + n ≤ vpages →
    Allows (fun _ => True) (mappages A d v n pa perm k) fun r =>
      Takes (span v n) d k r.1 r.2.1 r.2.2 := by
  intro n
  induction n with
  | zero =>
    intro v pa d k _
    refine .ok ⟨rfl, fun _ => ?_, fun hno => by cases hno⟩
    rw [span_zero, Finset.union_empty]
  | succ n ih =>
    intro v pa d k hend
    rw [mappages]
    apply (walkpgdirAlloc_cost (by omega)).bind
    rintro ⟨found, d₁, k₁⟩ ⟨hroom, hdone, hfailed⟩
    have hfirst : Takes {pdx v} d k found d₁ k₁ := by
      refine ⟨hroom, fun hm => ?_, fun hm => ?_⟩
      · rw [Finset.union_comm]
        exact hdone hm
      · rw [Finset.union_comm]
        exact hfailed hm
    rw [span_succ, Finset.insert_eq]
    cases found with
    | false => exact .ok hfirst.fail
    | true =>
      show Allows _ (if (d₁.pte v).p then _ else _) _
      split
      case isTrue => exact .stop trivial
      case isFalse =>
        exact (ih (by omega)).mono fun _ hrest => (hfirst.setPte v _).trans hrest

/-- The page tables for the entries of `kmap`. -/
def spans : List Kmap → Finset Nat
  | [] => ∅
  | e :: es => span e.virt e.size ∪ spans es

theorem mapKernel_cost : ∀ {es : List Kmap} {lo : Nat} {d : PgDir} {k : Kmem}, Ascending lo es →
    Allows (fun _ => True) (mapKernel A d es k) fun r =>
      Takes (spans es) d k r.1 r.2.1 r.2.2 := by
  intro es
  induction es with
  | nil =>
    intro lo d k _
    refine .ok ⟨rfl, fun _ => ?_, fun hno => by cases hno⟩
    exact (Finset.union_empty _).symm
  | cons e es ih =>
    intro lo d k hasc
    obtain ⟨-, hend, hrest⟩ := hasc
    rw [mapKernel]
    apply (mappages_cost hend).bind
    rintro ⟨mapped, d₁, k₁⟩ hfirst
    have hfirst : Takes (span e.virt e.size) d k mapped d₁ k₁ := hfirst
    cases mapped with
    | false => exact .ok hfirst.fail
    | true => exact (ih hrest).mono fun _ h => hfirst.trans h

/-- The page tables of the kernel part: physical memory, and the devices. -/
def kernelTabs : Finset Nat := Finset.Ico 512 568 ∪ Finset.Ico 1016 1024

theorem card_kernelTabs : kernelTabs.card = 64 := by
  have hapart : Disjoint (Finset.Ico 512 568) (Finset.Ico 1016 1024) :=
    Finset.disjoint_left.mpr fun i hi hi' => by
      rw [Finset.mem_Ico] at hi hi'
      omega
  rw [kernelTabs, Finset.card_union_of_disjoint hapart, Nat.card_Ico, Nat.card_Ico]

/-- **The kernel part has 64 page tables.** -/
theorem spans_kmap (img : Image) : spans (kmap img) = kernelTabs := by
  have hdata : 256 < img.dataPage := img.data_lt
  have hend : img.dataPage < 57344 := Nat.lt_of_le_of_lt img.data_le img.end_lt
  have hall : vpages = 1048576 := rfl
  have hlast : ∀ perm, Kmap.size ⟨1040384, 1040384, 0, perm⟩ = 8192 := by
    intro perm
    show (0 + vpages - 1040384) % vpages = 8192
    rw [hall]
  have hkern : kernbase / pgsize = 524288 := rfl
  have hext : extmem / pgsize = 256 := rfl
  have hdev : devspace / pgsize = 1040384 := rfl
  -- the first three ranges are one after the other
  have hfirst : span 524288 256 ∪ (span (524288 + 256) (img.dataPage - 256) ∪
      span (524288 + img.dataPage) (57344 - img.dataPage)) = span 524288 57344 := by
    have hmid : 524288 + 256 + (img.dataPage - 256) = 524288 + img.dataPage := by omega
    have hsum : 256 + (img.dataPage - 256 + (57344 - img.dataPage)) = 57344 := by omega
    rw [← hmid, ← span_append, ← span_append, hsum]
  have hphys : span 524288 57344 = Finset.Ico 512 568 := span_tables 512 56
  have hdevices : span 1040384 8192 = Finset.Ico 1016 1024 := span_tables 1016 8
  simp only [kmap, spans, hkern, hext, hdev, frames_eq, hlast]
  rw [Kmap.size_mk (by omega) (by omega), Kmap.size_mk (by omega) (by omega),
    Kmap.size_mk (by omega) (by omega), Nat.sub_zero, Finset.union_empty, hdevices,
    ← Finset.union_assoc, ← Finset.union_assoc, Finset.union_assoc (span 524288 256), hfirst, hphys,
    kernelTabs]

/-- **`setupkvm`** takes 65 pages, and fails only when there are less. -/
theorem setupkvm_cost : Allows (fun _ => True) (setupkvm A img k) fun r =>
    match r with
    | (none, _) => k.freelist.length < 65
    | (some d, k') => d.tabs = kernelTabs ∧ room d k' + 1 = k.freelist.length := by
  rw [setupkvm]
  apply kalloc_cost.bind
  rintro ⟨r, k₁⟩ ⟨hlen, hzero⟩
  cases r with
  | none =>
    refine .ok ?_
    have hzero : k.freelist.length = 0 := hzero rfl
    show k.freelist.length < 65
    omega
  | some pgdir =>
    have hlen : k₁.freelist.length + 1 = k.freelist.length := hlen
    show Allows _ (if devspace < kernbase + phystop then _ else _) _
    rw [if_neg (by decide)]
    show Allows _ (mapKernel A ⟨pgdir, fun _ => none, fun _ => .zero⟩ (kmap img) k₁ >>= _) _
    generalize hd : PgDir.mk pgdir (fun _ => none) (fun _ => .zero) = d
    have htabs : d.tabs = ∅ := by
      rw [← hd]
      exact Finset.filter_eq_empty_iff.mpr fun _ _ => Bool.false_ne_true
    apply (mapKernel_cost (kmap_ascending img)).bind
    rintro ⟨mapped, d₁, k₂⟩ htakes
    have htakes : Takes (spans (kmap img)) d k₁ mapped d₁ k₂ := htakes
    have hroom : room d k₁ = k₁.freelist.length := by
      rw [room, htabs, Finset.card_empty, Nat.add_zero]
    rw [spans_kmap] at htakes
    cases mapped with
    | true =>
      refine .ok ⟨?_, ?_⟩
      · have hdone := htakes.done rfl
        rwa [htabs, Finset.empty_union] at hdone
      · have hsame := htakes.room_eq
        show room d₁ k₂ + 1 = _
        omega
    | false =>
      have hlt := htakes.failed rfl
      rw [htabs, Finset.empty_union, card_kernelTabs] at hlt
      have hshort : k.freelist.length < 65 := by omega
      exact .skip fun _ => .ok hshort

/-- **The loop of `allocuvm`** gets to the end when there is room for the pages and their page
    tables. -/
theorem allocLoop_cost {oldsz newsz : Nat} : ∀ {n a : Nat} {d : PgDir} {k : Kmem}, a + n ≤ vpages →
    Allows (fun _ => True) (allocLoop A img oldsz newsz d a n k) fun r =>
      (r.1 = newsz ∧ room r.2.1 r.2.2 + n = room d k) ∨
        room d k < n + (d.tabs ∪ span a n).card := by
  intro n
  induction n with
  | zero => exact fun _ => .ok (.inl ⟨rfl, rfl⟩)
  | succ n ih =>
    intro a d k hend
    have hsub : d.tabs ⊆ d.tabs ∪ span a (n + 1) := Finset.subset_union_left
    rw [allocLoop]
    apply kalloc_cost.bind
    rintro ⟨r, k₁⟩ ⟨hlen, hzero⟩
    cases r with
    | none =>
      have hzero : k.freelist.length = 0 := hzero rfl
      have hshort : room d k < n + 1 + (d.tabs ∪ span a (n + 1)).card := by
        have hcard := Finset.card_le_card hsub
        rw [room]
        omega
      exact .skip fun _ => .ok (.inr hshort)
    | some mem =>
      have hlen : k₁.freelist.length + 1 = k.freelist.length := hlen
      apply (mappages_cost (by omega)).bind
      rintro ⟨mapped, d₁, k₂⟩ htakes
      have htakes : Takes (span a 1) d { k₁ with mem := Function.update k₁.mem mem fun _ => 0 }
        mapped d₁ k₂ := htakes
      have hroom : room d { k₁ with mem := Function.update k₁.mem mem fun _ => 0 } + 1 =
          room d k := by
        show k₁.freelist.length + d.tabs.card + 1 = k.freelist.length + d.tabs.card
        omega
      have hunion : d.tabs ∪ span a (n + 1) = d.tabs ∪ span a 1 ∪ span (a + 1) n := by
        rw [Nat.add_comm, span_append, Finset.union_assoc]
      cases mapped with
      | true =>
        have hsame := htakes.room_eq
        refine (ih (by omega)).mono fun r hr => hr.imp (fun heq => ⟨heq.1, ?_⟩) fun hlt => ?_
        · have hrest := heq.2
          omega
        · rw [htakes.done rfl, ← hunion] at hlt
          omega
      | false =>
        have hlt := htakes.failed rfl
        have hshort : room d k < n + 1 + (d.tabs ∪ span a (n + 1)).card := by
          have hcard : (d.tabs ∪ span a 1).card ≤ (d.tabs ∪ span a (n + 1)).card := by
            rw [hunion]
            exact Finset.card_le_card Finset.subset_union_left
          omega
        exact .skip fun _ => .skip fun _ => .ok (.inr hshort)

/-- **`allocuvm`** succeeds when there is room for the new pages and their page tables. -/
theorem allocuvm_cost {oldsz newsz : Nat} (hnew : newsz < kernbase) (hle : oldsz ≤ newsz) :
    Allows (fun _ => True) (allocuvm A img d oldsz newsz k) fun r =>
      (r.1 = newsz ∧ room r.2.1 r.2.2 + (pages newsz - pages oldsz) = room d k) ∨
        room d k < pages newsz - pages oldsz +
          (d.tabs ∪ span (pages oldsz) (pages newsz - pages oldsz)).card := by
  have hlast : pages newsz ≤ userPages := pages_le (Nat.le_of_lt hnew)
  have huser : userPages ≤ vpages := by decide
  have hpages := pages_mono hle
  rw [allocuvm, if_neg (by omega), if_neg (by omega), pgroundup_eq (by omega)]
  exact allocLoop_cost (by omega)

end Cost

end OsCodes.Paging
