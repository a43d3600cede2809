/-
  User pages and the size of a process in xv6-public, where `mmap` only moves the size.

  `trap` has a page mapped when it does not start above the size, so an access at the size itself
  maps a page that is not part of the process; a later `sbrk` finds it and panics.  Where no access is of
  this kind and no `mmap` wraps around, all user pages are below the size rounded up.

  `mappings_below` has the guard as its condition: no access starts in the page at the size, no
  `mmap` wraps around, and memory above `KERNBASE` is not touched.  That the condition is needed
  is shown by a run: the first process touches the page at its size, which `trap` has mapped for
  it, and its next `sbrk` finds the page there and panics (`boundary_mapped`).
-/
import OsCodes.Xv6.ForkLaw
import OsCodes.Xv6.LazyRun

namespace OsCodes.Paging.Lazy

open Xv6 (Image Kmem PgDir kernbase pgsize uint userPte userPages pages)
open Ptable (Slot)

/-- Sizes can be rounded up, and no user page is above. -/
def Inside (x : Kernel) : Prop := ∀ p, (x.tasks p).sz + pgsize ≤ 4294967296 ∧
  ∀ d, x.mem.dirs p = some d → Below d (x.tasks p).sz

/-- The guard of a call: it keeps away from kernel memory, and from the page at the size. -/
def Safe (x : Kernel) (e : Call × Int) : Prop := Guard x e.1 ∧ Tight x e.1

section Below

variable {img : Image} {k₀ : Kmem} {x x' : Kernel} {e : Call × Int} {d : PgDir} {k : Kmem}
  {sz : Nat}

/-- **A call keeps user pages below the size.** -/
theorem Inside.step (h : Inside x) (hkeeps : Keeps x e.1 x') (hok : Tight x e.1) : Inside x' := by
  intro p
  constructor
  · have hmax : ∀ q, (x.tasks q).sz + 4096 ≤ 4294967296 := fun q => (h q).1
    show (x'.tasks p).sz + 4096 ≤ 4294967296
    rcases hkeeps.size p with hlt | ⟨q, hle⟩ | ⟨esp, mem, he, hsize⟩
    · have hlt : (x'.tasks p).sz < 2147483648 := hlt
      omega
    · have hq := hmax q
      omega
    · rw [hsize]
      cases sysMmap_size (x.tasks p).sz esp mem with
      | inl hsame =>
        rw [hsame]
        exact hmax p
      | inr hgrow =>
        obtain ⟨n, hn, hpos, hmod, hset⟩ := hgrow
        rw [he] at hok
        have hfits : ((x.tasks p).sz : Int) + n.toInt + 4096 ≤ 4294967296 := hok n hn hpos hmod
        rw [hset]
        show (((x.tasks p).sz + n.toInt) % 4294967296).toNat + 4096 ≤ 4294967296
        omega
  · intro d' hd'
    cases hkeeps.below hok p d' hd' with
    | inl hnew => exact hnew
    | inr hold =>
      obtain ⟨d, hd, hkeep⟩ := hold
      exact hkeep ((h p).2 d hd)

/-- **Every guarded run** keeps user pages below the size. -/
theorem reach_inside (hboot : Booted img k₀) (hr : ((system img k₀).guard Safe).Reach x) :
    Good img k₀.freelist.toFinset (Counts.boot_valid hboot) x ∧ Inside x := by
  refine hr.invariant (I := fun x => Good img _ (Counts.boot_valid hboot) x ∧ Inside x) ?_ ?_
  · intro x hstart
    have hfirst := (userinit_spec hboot).of_ok hstart
    refine ⟨hfirst.good, fun p => ?_⟩
    by_cases hp : p = Ptable.initproc
    · rw [hp, hfirst.initproc.2]
      refine ⟨by decide, fun d hd v hv hne => ?_⟩
      obtain ⟨d', hd', hnone, -⟩ := hfirst.dir
      obtain rfl := Option.some.inj (hd.symm.trans hd')
      by_contra hge
      refine hne (hnone v hv fun hzero => hge ?_)
      rw [hzero]
      decide
    · rw [(hfirst.others p hp).1]
      have hsmall : 0 + pgsize ≤ 4294967296 := by decide
      refine ⟨hsmall, fun d hd => ?_⟩
      rw [(hfirst.others p hp).2] at hd
      cases hd
  · rintro x e x' ⟨hgood, hin⟩ ⟨⟨hguard, htight⟩, hallowed, hrun⟩
    obtain ⟨hgood', hkeeps⟩ := (hgood.step hallowed hguard).of_ok hrun
    exact ⟨hgood', hin.step hkeeps htight⟩

/-- Unmapping finds no page mapped already. -/
theorem deallocLoop_panics {a last : Nat} : Allows (· ≠ "remap")
    (Xv6.deallocLoop (plain.kfree img) "kfree" d a last k) fun _ => True := by
  refine Xv6.deallocLoop_keeps (I := fun _ _ => True) (by decide) (fun _ _ _ => ?_) trivial
  show Allows _ (Plain.kfree img _ _) _
  rw [Plain.kfree]
  split
  case isTrue => exact .stop (by decide)
  case isFalse => exact .ok trivial

theorem deallocuvm_panics {newsz : Nat} :
    Allows (· ≠ "remap") (deallocuvm plain img d sz newsz k) fun _ => True := by
  rw [deallocuvm]
  split
  case isTrue => exact .ok trivial
  case isFalse => exact deallocLoop_panics.bind fun _ _ => .ok trivial

/-- **`growproc` finds no page mapped already** when the user pages are below the size. -/
theorem growproc_no_remap {B : Books plain img} {R : Refs Nat} {n : Int} (hb : Below d sz)
    (h : B.Acct k (R + d.uses)) : growproc img d sz n k ≠ .error "remap" := by
  have hpanics : Allows (· ≠ "remap") (growproc img d sz n k) fun _ => True := by
    by_cases hneg : n < 0
    · rw [growproc, if_neg (by omega), if_pos hneg]
      apply deallocuvm_panics.bind
      rintro ⟨newsz, d₁, k₁⟩ -
      show Allows _ (if newsz = 0 then _ else _) _
      split
      case isTrue => exact .ok trivial
      case isFalse => exact .ok trivial
    · refine (growproc_spec (fun hno => absurd hno hneg) (fun hex => ?_) h).mono
        fun _ _ => trivial
      obtain ⟨u, hu, hge, hne⟩ := hex
      exact absurd (hb u hu hne) (Nat.not_lt_of_le hge)
  intro herr
  rw [herr] at hpanics
  exact hpanics rfl

/-- **An access at or above the size maps nothing**, if it is not of the kind that `trap` takes for
    one inside. -/
theorem access_maps_nothing {pool : Finset Nat}
    {hvalid : ∀ p ∈ pool, img.endPage ≤ p ∧ p < Xv6.frames} {p : Slot} {addr : Nat} {write : Bool}
    (h : Good img pool hvalid x) (hguard : Guard x (.access p addr write))
    (hok : Tight x (.access p addr write)) (hge : (x.tasks p).sz ≤ addr) :
    Allows (fun _ => True) (access img p addr write x) fun r =>
      ∀ q d', r.2.mem.dirs q = some d' → ∃ d, x.mem.dirs q = some d ∧ d'.entry = d.entry := by
  have hsame : ∀ q d', x.mem.dirs q = some d' → ∃ d, x.mem.dirs q = some d ∧ d'.entry = d.entry :=
    fun q d' hd' => ⟨d', hd', rfl⟩
  rw [access]
  refine with_dir fun d hd => ?_
  split
  case h_1 => exact .ok hsame
  case h_2 =>
    split
    case h_1 =>
      rw [exit]
      split
      case isTrue => exact .stop trivial
      case isFalse => exact .ok hsame
    case h_2 v hv =>
      obtain ⟨rfl, hle⟩ := pgfltPage_some hv
      apply (Eager.allocateOnPgflt_spec (pgfltPage_user hguard hv) (fun _ => trivial)
        (h.live hd)).bind
      rintro ⟨d₁, k⟩ ⟨-, -, hentry⟩
      have hentry : d₁.entry = d.entry := by
        refine hentry.resolve_right fun hmap => ?_
        cases hok d hd hge with
        | inl hlt => exact absurd hle (Nat.not_le_of_lt hlt)
        | inr hne => exact hne hmap.1
      refine .ok fun q d' hd' => ?_
      have hd' : Function.update x.mem.dirs p (some d₁) q = some d' := hd'
      by_cases hqp : q = p
      · rw [hqp, Function.update_self] at hd'
        rw [hqp, ← Option.some.inj hd']
        exact ⟨d, hd, hentry⟩
      · rw [Function.update_of_ne hqp] at hd'
        exact hsame q d' hd'

/-- **User mappings stay under the size.**  In every state of a run in which no call touches kernel
    memory, no `mmap` wraps around, and no process touches an absent page above its size that starts
    at or below its size: every user page is below the size rounded up; a further access above the
    size maps no page; and `growproc` finds no page mapped. -/
theorem mappings_below (hboot : Booted img k₀) (hr : ((system img k₀).guard Safe).Reach x) :
    (∀ p d v, x.mem.dirs p = some d → v < userPages → d.entry v ≠ none →
      v < pgroundup (x.tasks p).sz) ∧
    (∀ p addr write r x', Safe x (.access p addr write, r) →
      run img x (.access p addr write) = .ok (r, x') → (x.tasks p).sz ≤ addr →
      ∀ q d', x'.mem.dirs q = some d' → ∃ d, x.mem.dirs q = some d ∧ d'.entry = d.entry) ∧
    ∀ p d n, x.mem.dirs p = some d →
      growproc img d (x.tasks p).sz n x.mem.kmem ≠ .error "remap" := by
  obtain ⟨hgood, hin⟩ := reach_inside hboot hr
  refine ⟨fun p d v hd hv hne => ?_, fun p addr write r x' hok hrun hge q d' hd' => ?_,
    fun p d n hd => ?_⟩
  · obtain ⟨hmax, hbelow⟩ := hin p
    have hmax : (x.tasks p).sz + 4096 ≤ 4294967296 := hmax
    have hlt : v < ((x.tasks p).sz + 4096 - 1) / 4096 := hbelow d hd v hv hne
    show v < ((x.tasks p).sz + 4096 - 1) % 4294967296 / 4096
    rwa [Nat.mod_eq_of_lt (by omega)]
  · exact (access_maps_nothing hgood hok.1 hok.2 hge).of_ok hrun q d' hd'
  · exact growproc_no_remap ((hin p).2 d hd) (hgood.live hd)

end Below

/-! ## The page at the size -/

section Boundary

variable {img : Image} {x : Kernel} {p : Slot} {d : PgDir} {k : Kmem} {v page : Nat}
  {rest : List Nat}

/-- What `allocate_on_pgflt` maps. -/
def lazyPte (page : Nat) : Xv6.Pte :=
  { page := page, p := true, w := true, u := true, cow := false }

/-- Mapping a page where there is a page table. -/
theorem mappages_found {A : Allocator} {pa : Nat} {perm : Xv6.Perm}
    (ht : (d.table (Xv6.pdx v)).isSome) : mappages A d v 1 pa perm k =
      if (d.pte v).p then .error "remap"
      else .ok (true, d.setPte v { toPerm := perm, page := pa, p := true }, k) := by
  obtain ⟨t, ht⟩ := Option.isSome_iff_exists.mp ht
  rw [mappages, walkpgdirAlloc, ht]
  rfl

/-- Mapping an absent page. -/
theorem allocate_absent (ht : (d.table (Xv6.pdx v)).isSome) (hnone : d.entry v = none)
    (hfree : k.freelist = page :: rest) :
    Eager.allocateOnPgflt img d v k = .ok (d.setPte v (lazyPte page),
      { k with freelist := rest, mem := Function.update k.mem page fun _ => 0 }) := by
  have hp : (d.pte v).p = false := Xv6.not_present hnone (Xv6.walkpgdir_eq_some.mpr ⟨ht, rfl⟩)
  have hkalloc : Plain.kalloc k = .ok (some page, { k with freelist := rest }) := by
    rw [Plain.kalloc, hfree]
  rw [Eager.allocateOnPgflt, hkalloc]
  show (mappages plain d v 1 page ⟨true, true, false⟩ _ >>= _) = _
  rw [mappages_found ht, hp]
  rfl

/-- **A touch of an absent page** that does not start above the size maps it. -/
theorem touch_step (img : Image) (k₀ : Kmem) {addr : Nat} (write : Bool)
    (hrun : (x.tasks p).state = .runnable) (hd : x.mem.dirs p = some d)
    (ht : (d.table (Xv6.pdx (addr / pgsize))).isSome) (hnone : d.entry (addr / pgsize) = none)
    (hle : addr / pgsize * pgsize ≤ (x.tasks p).sz) (hfree : x.mem.kmem.freelist = page :: rest) :
    (system img k₀).step x (.access p addr write, 0) { x with
      mem := x.mem.setDir p (some (d.setPte (addr / pgsize) (lazyPte page)))
        { x.mem.kmem with
          freelist := rest, mem := Function.update x.mem.kmem.mem page fun _ => 0 } } := by
  have hpage : pgfltPage (x.tasks p).sz addr = some (addr / pgsize) := by
    rw [pgfltPage]
    show (if (x.tasks p).sz < addr / pgsize * pgsize then none else _) = _
    rw [if_neg (Nat.not_lt_of_le hle)]
    exact congrArg some (Nat.mul_div_cancel _ (by decide))
  refine ⟨hrun, ?_⟩
  show access img p addr write x = _
  cases hpte : userPte d (addr / pgsize) write with
  | ok pte =>
    rw [(Xv6.userPte_eq_ok.mp hpte).1] at hnone
    cases hnone
  | error e =>
    simp only [access, Counts.dir_eq hd, hpte, hpage, allocate_absent ht hnone hfree, bind,
      Except.bind]

/-- **`sbrk` finds a page** at the size. -/
theorem growproc_remap (ht : (d.table (Xv6.pdx 1)).isSome) (hp : (d.pte 1).p = true)
    (hfree : k.freelist = page :: rest) : growproc img d 4096 1 k = .error "remap" := by
  have hnew : uint ((4096 : Nat) + 1) = 4097 := by decide
  have hkalloc : plain.kalloc k = .ok (some page, { k with freelist := rest }) := by
    show Plain.kalloc k = _
    rw [Plain.kalloc, hfree]
  have halloc : allocuvm plain img d 4096 4097 k = .error "remap" := by
    rw [allocuvm, if_neg (by decide), if_neg (by decide)]
    show allocLoop plain img 4096 4097 d 1 1 k = _
    rw [allocLoop, hkalloc]
    show (mappages plain d 1 1 page ⟨true, true, false⟩ _ >>= _) = _
    rw [mappages_found ht, hp]
    rfl
  rw [growproc, if_pos (by decide), hnew, halloc]
  rfl

/-- **A process of one page** that asks for a byte, when the next page is mapped. -/
theorem sbrk_remap (hsz : (x.tasks p).sz = 4096) (hd : x.mem.dirs p = some d)
    (ht : (d.table (Xv6.pdx 1)).isSome) (hp : (d.pte 1).p = true)
    (hfree : x.mem.kmem.freelist = page :: rest) :
    run img x (.sbrk p 0 fun _ => 1) = .error "remap" := by
  have hint : argint 4096 (fun _ => 1) 0 0 = some 1 := by decide
  show sysSbrk img p 0 (fun _ => 1) x = _
  rw [sysSbrk, hsz, hint, Counts.dir_eq hd]
  show (growproc img d 4096 1 x.mem.kmem >>= _) = _
  rw [growproc_remap ht hp hfree]
  rfl

/-- The first process: its second page is absent, but has a page table, and there are pages left. -/
theorem First.second {pool : Finset Nat}
    {hvalid : ∀ p ∈ pool, img.endPage ≤ p ∧ p < Xv6.frames} {k₀ : Kmem}
    (h : First img pool hvalid k₀ x) (hlen : 70 ≤ k₀.freelist.length) :
    ∃ d page next rest, x.mem.dirs Ptable.initproc = some d ∧ (d.table (Xv6.pdx 1)).isSome ∧
      d.entry 1 = none ∧ x.mem.kmem.freelist = page :: next :: rest := by
  obtain ⟨d, hd, hnone, hpage⟩ := h.dir
  obtain ⟨hzero, hcount⟩ := hpage (by omega)
  obtain ⟨e, he⟩ := Option.ne_none_iff_exists'.mp hzero
  have htable := (Xv6.walkpgdir_eq_some.mp (Xv6.entry_eq_some.mp he).1).1
  cases hfree : x.mem.kmem.freelist with
  | nil =>
    rw [hfree] at hcount
    have hcount : k₀.freelist.length = 68 := hcount
    omega
  | cons page more =>
    cases more with
    | nil =>
      rw [hfree] at hcount
      have hcount : k₀.freelist.length = 69 := hcount
      omega
    | cons next rest =>
      exact ⟨d, page, next, rest, hd, htable, hnone 1 (by decide) (by decide), rfl⟩

/-- Beside the first process there are free slots. -/
theorem First.slot {pool : Finset Nat}
    {hvalid : ∀ p ∈ pool, img.endPage ≤ p ∧ p < Xv6.frames} {k₀ : Kmem}
    (h : First img pool hvalid k₀ x) (t : Task) :
    unusedSlot (x.setTask Ptable.initproc t) ≠ none := by
  intro hno
  have hother : (x.setTask Ptable.initproc t).tasks 1 = (boot k₀).tasks 1 := by
    rw [(beside_task x _ _).tasks_eq 1 (by decide)]
    exact (h.others 1 (by decide)).1
  have hused := Ptable.find_none hno 1
  rw [hother] at hused
  have hused : decide (Ptable.ProcState.unused = Ptable.ProcState.unused) = false := hused
  exact absurd hused (by decide)

end Boundary

/-- The first process asks for a page and touches it. -/
theorem first_touched : ∃ (k₀ : Kmem) (x : Kernel) (d : PgDir) (page : Nat), Booted bootImage k₀ ∧
    ((system bootImage k₀).guard Safe).Reach x ∧
    (x.tasks Ptable.initproc).state = .runnable ∧ (x.tasks Ptable.initproc).sz = 8192 ∧
    x.mem.dirs Ptable.initproc = some d ∧ d.entry 0 ≠ none ∧ d.entry 1 = some (lazyPte page) ∧
    x.mem.kmem.mem page = (fun _ => 0) ∧ unusedSlot x ≠ none ∧
    1000 ≤ x.mem.kmem.freelist.length := by
  obtain ⟨k₀, hboot, x₀, h0, hfirst, hlen⟩ := first_exists
  obtain ⟨d, page, next, rest, hd, ht, hnone, hfree⟩ := hfirst.second (by omega)
  obtain ⟨d', hd', -, hpage⟩ := hfirst.dir
  obtain rfl := Option.some.inj (hd.symm.trans hd')
  obtain ⟨hzero, hcount⟩ := hpage (by omega)
  have hstart : ((system bootImage k₀).guard Safe).Reach x₀ := .start h0
  have hmmap : Safe x₀ (.mmap Ptable.initproc 0 fun _ => 4096, 4096) := by
    refine ⟨trivial, fun n hn _ _ => ?_⟩
    have hint : argint (x₀.tasks Ptable.initproc).sz (fun _ => 4096) 0 0 = some 4096 := by
      rw [hfirst.initproc.2]
      decide
    obtain rfl := Option.some.inj (hint.symm.trans hn)
    rw [hfirst.initproc.2]
    decide
  have hr₁ := hstart.guarded hfirst.mmap hmmap
  have hslot := hfirst.slot { x₀.tasks Ptable.initproc with sz := 8192 }
  generalize hx₁ : x₀.setTask Ptable.initproc
    { x₀.tasks Ptable.initproc with sz := 8192 } = x₁ at hr₁ hslot
  have hmem₁ : x₁.mem = x₀.mem := by rw [← hx₁]; rfl
  have htask₁ : (x₁.tasks Ptable.initproc).state = .runnable ∧
      (x₁.tasks Ptable.initproc).sz = 8192 := by
    rw [← hx₁, setTask_task]
    exact ⟨hfirst.initproc.1, rfl⟩
  rw [← hmem₁] at hd hfree
  have hle : 4096 / pgsize * pgsize ≤ (x₁.tasks Ptable.initproc).sz := by
    rw [htask₁.2]
    decide
  have hstep := touch_step bootImage k₀ true htask₁.1 hd ht hnone hle hfree
  have htouch : Safe x₁ (.access Ptable.initproc 4096 true, 0) := by
    refine ⟨fun hge => absurd hge (by decide), fun _ _ hge => absurd hge ?_⟩
    rw [htask₁.2]
    decide
  have hset : (d.setPte 1 (lazyPte page)).entry = Function.update d.entry 1 (some (lazyPte page)) :=
    Xv6.entry_setPte ht _
  have hd₂ : Function.update x₁.mem.dirs Ptable.initproc (some (d.setPte 1 (lazyPte page)))
      Ptable.initproc = some (d.setPte 1 (lazyPte page)) := Function.update_self _ _ _
  have hmem₂ : Function.update x₁.mem.kmem.mem page (fun _ => 0) page = fun _ => 0 :=
    Function.update_self _ _ _
  refine ⟨k₀, _, d.setPte 1 (lazyPte page), page, hboot, hr₁.guarded hstep htouch, htask₁.1,
    htask₁.2, hd₂, ?_, ?_, hmem₂, hslot, ?_⟩
  · show (d.setPte 1 (lazyPte page)).entry 0 ≠ none
    rw [hset, Function.update_of_ne (by decide)]
    exact hzero
  · show (d.setPte 1 (lazyPte page)).entry 1 = _
    rw [hset, Function.update_self]
  · rw [← hmem₁, hfree, List.length_cons] at hcount
    show 1000 ≤ (next :: rest).length
    omega

/-- The first process asks for a page and touches it. -/
theorem mappings_below_touched : ∃ (k₀ : Kmem) (x : Kernel) (d : PgDir), Booted bootImage k₀ ∧
    ((system bootImage k₀).guard Safe).Reach x ∧ (x.tasks Ptable.initproc).sz = 8192 ∧
    x.mem.dirs Ptable.initproc = some d ∧ d.entry 1 ≠ none ∧
    (∀ v, v < userPages → d.entry v ≠ none → v < 2) ∧
    growproc bootImage d 8192 1 x.mem.kmem ≠ .error "remap" := by
  obtain ⟨k₀, x, d, page, hboot, hr, -, hsz, hd, -, he, -, -, -⟩ := first_touched
  obtain ⟨hbelow, -, hsbrk⟩ := mappings_below hboot hr
  refine ⟨k₀, x, d, hboot, hr, hsz, hd, ?_, fun v hv hne => ?_, ?_⟩
  · rw [he]
    exact fun hno => by cases hno
  · have hlt := hbelow Ptable.initproc d v hd hv hne
    have hsize : pgroundup (x.tasks Ptable.initproc).sz = 2 := by
      rw [hsz]
      decide
    rwa [← hsize]
  · have hok := hsbrk Ptable.initproc d 1 hd
    rw [← hsz]
    exact hok

/-- The first process, of size 4096, touches the page at its size, and the page is mapped; then it
    asks for one byte, and the kernel panics. -/
theorem boundary_mapped : ∃ (k₀ : Kmem) (x₀ x₁ : Kernel), Booted bootImage k₀ ∧
    (system bootImage k₀).start x₀ ∧ (x₀.tasks Ptable.initproc).sz = 4096 ∧
    (∀ d, x₀.mem.dirs Ptable.initproc = some d → d.entry 1 = none) ∧
    (system bootImage k₀).step x₀ (.access Ptable.initproc 4096 false, 0) x₁ ∧
    (x₁.tasks Ptable.initproc).sz = 4096 ∧ pgroundup 4096 = 1 ∧
    (∀ d, x₁.mem.dirs Ptable.initproc = some d → d.entry 1 ≠ none) ∧
    run bootImage x₁ (.sbrk Ptable.initproc 0 fun _ => 1) = .error "remap" := by
  obtain ⟨k₀, hboot, x₀, h0, hfirst, hlen⟩ := first_exists
  obtain ⟨d, page, next, rest, hd, ht, hnone, hfree⟩ := hfirst.second (by omega)
  have hsz : (x₀.tasks Ptable.initproc).sz = 4096 := hfirst.initproc.2
  have hle : 4096 / pgsize * pgsize ≤ (x₀.tasks Ptable.initproc).sz := by
    rw [hsz]
    decide
  have hstep := touch_step bootImage k₀ false hfirst.initproc.1 hd ht hnone hle hfree
  have hset : (d.setPte 1 (lazyPte page)).entry = Function.update d.entry 1 (some (lazyPte page)) :=
    Xv6.entry_setPte ht _
  have hp : ((d.setPte 1 (lazyPte page)).pte 1).p = true := by
    show (Function.update d.pte 1 (lazyPte page) 1).p = true
    rw [Function.update_self]
    rfl
  have hd₁ : Function.update x₀.mem.dirs Ptable.initproc (some (d.setPte 1 (lazyPte page)))
      Ptable.initproc = some (d.setPte 1 (lazyPte page)) := Function.update_self _ _ _
  refine ⟨k₀, x₀, _, hboot, h0, hsz, fun d' hd' => ?_, hstep, hsz, by decide,
    fun d' hd' => ?_, ?_⟩
  · rw [hd] at hd'
    rw [← Option.some.inj hd']
    exact hnone
  · rw [← Option.some.inj (hd₁.symm.trans hd'), hset, Function.update_self]
    exact fun hno => by cases hno
  · exact sbrk_remap hsz hd₁ ht hp rfl

end OsCodes.Paging.Lazy
