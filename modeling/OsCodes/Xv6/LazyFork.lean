/-
  `fork` in xv6-public and pages that `mmap` has promised.

  A page that was never touched reads as zeros; an access that maps it changes nothing a process
  sees.
  `copyuvm` wants every page below the size, so `fork` copies what a process sees only where no page
  is absent, and stops with a panic at the first absent page that memory lasts for.

  `look` is what a process finds at an address, whether or not the page is there: an access gets
  it a page of zeros.  So `Works` can be stated about both processes without saying which pages
  are mapped, and `fork_works_iff` gives the condition on the parent's pages and the free memory
  before the call.  The two runs at the end differ in one access: a page of an `mmap` that was
  touched is copied, and one that was not stops the kernel.
-/
import OsCodes.Xv6.LazyBelow

namespace OsCodes.Paging.Lazy

open Xv6 (Image Kmem PgDir Perm pgsize userPages pages)
open Ptable (Slot ProcState)

/-- What a process finds at an address below its size; without a page, the first access gets it one
    of zeros. -/
def look (k : Kmem) (d : PgDir) (addr : Nat) : Perm × UInt8 :=
  match d.entry (addr / pgsize) with
  | none => (⟨true, true, false⟩, 0)
  | some e => (e.toPerm, k.mem e.page (addr % pgsize))

/-- `fork` returns -1, or child and parent both find in their memory what the parent had there. -/
def Works (img : Image) (x : Kernel) (p : Slot) : Prop :=
  ∃ r x', run img x (.fork p) = .ok (r, x') ∧ (r = -1 ∨ ∃ np d pgdir child,
    unusedSlot x = some np ∧ x.mem.dirs p = some d ∧ x'.mem.dirs p = some pgdir ∧
    x'.mem.dirs np = some child ∧ (x'.tasks np).sz = (x.tasks p).sz ∧
    ∀ addr, addr < (x.tasks p).sz →
      look x'.mem.kmem child addr = look x.mem.kmem d addr ∧
      look x'.mem.kmem pgdir addr = look x.mem.kmem d addr)

section Fork

variable {img : Image} {pool : Finset Nat} {hvalid : ∀ p ∈ pool, img.endPage ≤ p ∧ p < Xv6.frames}
  {x x' : Kernel} {p np : Slot} {d d' : PgDir} {k k' : Kmem} {addr u : Nat}

theorem look_some {e : Xv6.Pte} (he : d.entry (addr / pgsize) = some e) :
    look k d addr = (e.toPerm, k.mem e.page (addr % pgsize)) := by
  rw [look, he]

theorem look_none (hnone : d.entry (addr / pgsize) = none) :
    look k d addr = (⟨true, true, false⟩, 0) := by
  rw [look, hnone]

/-- Pages in use keep what is found in them. -/
theorem look_kept (he : d'.entry (addr / pgsize) = d.entry (addr / pgsize))
    (hkept : ∀ e, d.entry (addr / pgsize) = some e → k'.mem e.page = k.mem e.page) :
    look k' d' addr = look k d addr := by
  cases hold : d.entry (addr / pgsize) with
  | none => rw [look_none hold, look_none (he.trans hold)]
  | some e => rw [look_some hold, look_some (he.trans hold), hkept e hold]

/-- **An access changes nothing that its process finds**, also where it maps a page. -/
theorem Good.access_look {write : Bool} {a : Nat} (h : Good img pool hvalid x)
    (hok : Guard x (.access p a write)) (hd : x.mem.dirs p = some d) :
    Allows (fun _ => True) (Lazy.access img p a write x) fun r => ∀ d' addr,
      r.2.mem.dirs p = some d' → addr / pgsize < userPages →
      look r.2.mem.kmem d' addr = look x.mem.kmem d addr := by
  have hsame : ∀ d' addr, x.mem.dirs p = some d' → addr / pgsize < userPages →
      look x.mem.kmem d' addr = look x.mem.kmem d addr := fun d' addr hd' _ => by
    rw [Option.some.inj (hd.symm.trans hd')]
  rw [Lazy.access]
  refine with_dir fun d' hd' => ?_
  obtain rfl := Option.some.inj (hd.symm.trans hd')
  split
  case h_1 => exact .ok hsame
  case h_2 =>
    split
    case h_1 =>
      rw [Lazy.exit]
      split
      case isTrue => exact .stop trivial
      case isFalse => exact .ok hsame
    case h_2 v hv =>
      apply (Eager.allocateOnPgflt_spec (pgfltPage_user hok hv) (fun _ => trivial) (h.live hd)).bind
      rintro ⟨d₁, k⟩ ⟨-, hkept, hentry⟩
      refine .ok fun d' addr hd' haddr => ?_
      have hd' : Function.update x.mem.dirs p (some d₁) p = some d' := hd'
      rw [Function.update_self] at hd'
      rw [← Option.some.inj hd']
      have hused : ∀ e, d.entry (addr / pgsize) = some e →
          k.mem e.page = x.mem.kmem.mem e.page := by
        intro e he
        refine hkept _ ?_
        rw [Refs.total_add]
        exact Nat.add_pos_right _ (Xv6.maps_pos haddr he)
      show look k d₁ addr = _
      rcases hentry with heq | ⟨hnone, e, hset, hperm, hzero⟩
      · exact look_kept (congrFun heq _) hused
      · have hset : d₁.entry = Function.update d.entry v (some e) := hset
        by_cases hpage : addr / pgsize = v
        · -- the page is new, and zero
          have he : d₁.entry (addr / pgsize) = some e := by rw [hset, hpage, Function.update_self]
          rw [look_some he, look_none (hpage ▸ hnone), hperm]
          exact congrArg (Prod.mk _) (congrFun hzero _)
        · refine look_kept ?_ hused
          rw [hset, Function.update_of_ne hpage]

/-- A copy looks like the original. -/
theorem Copied.look_eq (h : Copied x p d x' np d') (hlt : addr < (x.tasks p).sz)
    (hkept : ∀ u e, u < userPages → d.entry u = some e →
      x'.mem.kmem.mem e.page = x.mem.kmem.mem e.page) :
    look x'.mem.kmem d' addr = look x.mem.kmem d addr ∧
      look x'.mem.kmem d addr = look x.mem.kmem d addr := by
  obtain ⟨huser, e, e', he, he', hperm, hcont⟩ := h.page _ (Xv6.page_lt_pages hlt)
  constructor
  · rw [look_some he, look_some he', hperm, hcont]
  · exact look_kept rfl fun e he => hkept _ e huser he

/-- A fork that returns has worked. -/
theorem Forks.works {r : Int} (hrun : run img x (.fork p) = .ok (r, x'))
    (hd : x.mem.dirs p = some d) (h : Forks img pool hvalid x p d (r, x')) : Works img x p := by
  refine ⟨r, x', hrun, ?_⟩
  rcases h.outcome with ⟨hfail, -⟩ | ⟨np, d', hcopied⟩
  · exact .inl hfail
  · exact .inr ⟨np, d, d, d', hcopied.slot, hd, h.parent, hcopied.dir_eq, hcopied.size_eq,
      fun addr hlt => hcopied.look_eq hlt h.kept⟩

/-- **At an absent page** `copyuvm` panics, if memory lasts until there. -/
theorem Good.fork_absent (h : Good img pool hvalid x) (hrun : (x.tasks p).state = .runnable)
    (hd : x.mem.dirs p = some d) (hu : u < pages (x.tasks p).sz) (hnone : d.entry u = none)
    (hslot : unusedSlot x ≠ none)
    (hmany : 1 + Eager.copyPages u ≤ x.mem.kmem.freelist.length) :
    ∃ e, (e = "copyuvm: pte should exist" ∨ e = "copyuvm: page not present") ∧
      run img x (.fork p) = .error e := by
  have hspec := h.fork
    (E := fun e => e = "copyuvm: pte should exist" ∨ e = "copyuvm: page not present") hrun hd
    fun _ _ _ _ _ _ => ⟨.inl rfl, .inr rfl⟩
  show ∃ e, _ ∧ Eager.fork img p x = .error e
  cases hr : Eager.fork img p x with
  | error e =>
    rw [hr] at hspec
    exact ⟨e, hspec, rfl⟩
  | ok r =>
    rw [hr] at hspec
    have hspec : Forks img pool hvalid x p d r := hspec
    exfalso
    rcases hspec.outcome with ⟨-, hno | hfew | ⟨j, -, hall, hfew⟩⟩ | ⟨np, d', hcopied⟩
    · exact hslot hno
    · rw [Eager.copyPages] at hmany
      omega
    · have hj : j + 1 ≤ u := by
        by_contra hle
        exact hall u (by omega) hnone
      have hmono := Eager.copyPages_mono hj
      omega
    · obtain ⟨-, e, -, he, -⟩ := hcopied.page u hu
      rw [hnone] at he
      cases he

/-- **`fork` works exactly where no page is absent**, or where absent pages are out of its reach.
    In a run in which no call touches kernel memory, a fork returns -1 or makes a child that finds
    in its memory what the parent does, if and only if there is no slot for a child, or each absent
    page below the size has too few free pages for the kernel stack and the copy up to it. -/
theorem fork_works_iff {k₀ : Kmem} (hboot : Booted img k₀)
    (hr : ((system img k₀).guard fun x e => Guard x e.1).Reach x)
    (hrun : (x.tasks p).state = .runnable) (hd : x.mem.dirs p = some d) :
    Works img x p ↔ ∀ u, u < pages (x.tasks p).sz → d.entry u = none →
      unusedSlot x = none ∨ x.mem.kmem.freelist.length < 1 + Eager.copyPages u := by
  have hgood := reach_good hboot (fun _ _ hok => hok) hr
  constructor
  · rintro ⟨r, x', hfork, -⟩ u hu hnone
    by_contra hno
    rw [not_or, Nat.not_lt] at hno
    obtain ⟨e, -, herr⟩ := hgood.fork_absent hrun hd hu hnone hno.1 hno.2
    rw [hfork] at herr
    cases herr
  · intro hcond
    have hspec := hgood.fork (E := fun _ => False) hrun hd fun u hu hnone _ hslot hmany => by
      rcases hcond u hu hnone with hno | hfew
      · exact absurd hno hslot
      · omega
    obtain ⟨⟨r, x'⟩, hfork, hforks⟩ := hspec.exists_ok
    exact hforks.works hfork hd

end Fork

/-- The first process asks for a page, touches it and forks: the child finds a writable page of zeros
    at its address. -/
theorem fork_works_touched : ∃ (k₀ : Kmem) (x : Kernel),
    ((system bootImage k₀).guard fun x e => Guard x e.1).Reach x ∧
    (x.tasks Ptable.initproc).sz = 8192 ∧ Works bootImage x Ptable.initproc ∧
    ∃ r x' np child, run bootImage x (.fork Ptable.initproc) = .ok (r, x') ∧
      x'.mem.dirs np = some child ∧ (x'.tasks np).sz = 8192 ∧
      look x'.mem.kmem child 4096 = (⟨true, true, false⟩, 0) := by
  obtain ⟨k₀, x, d, page, hboot, hsafe, hrun, hsz, hd, hzero, he, hmem, hslot, hmany⟩ :=
    first_touched
  have hr : ((system bootImage k₀).guard fun x e => Guard x e.1).Reach x :=
    hsafe.guard_mono fun _ _ hok => hok.1
  have htwo : pages (x.tasks Ptable.initproc).sz = 2 := by
    rw [hsz]
    decide
  have hall : ∀ u, u < pages (x.tasks Ptable.initproc).sz → d.entry u ≠ none := by
    intro u hu
    rw [htwo] at hu
    obtain rfl | rfl : u = 0 ∨ u = 1 := by omega
    · exact hzero
    · rw [he]
      exact fun hno => by cases hno
  have hworks := (fork_works_iff hboot hr hrun hd).mpr fun u hu hnone => absurd hnone (hall u hu)
  refine ⟨k₀, x, hr, hsz, hworks, ?_⟩
  obtain ⟨r, x', hfork, -⟩ := hworks
  have hforks := ((reach_good hboot (fun _ _ hok => hok) hr).fork (E := fun _ => True) hrun hd
    fun _ _ _ _ _ _ => ⟨trivial, trivial⟩).of_ok hfork
  rcases hforks.outcome with ⟨-, hshort⟩ | ⟨np, child, hcopied⟩
  · exfalso
    rcases hshort with hno | hfew | ⟨j, hj, -, hfew⟩
    · exact hslot hno
    · omega
    · have hmono := Eager.copyPages_mono (show j + 1 ≤ 2 by omega)
      have hcopy : Eager.copyPages 2 = 68 := by decide
      omega
  · refine ⟨r, x', np, child, hfork, hcopied.dir_eq, hcopied.size_eq.trans hsz, ?_⟩
    rw [(hcopied.look_eq (by rw [hsz]; decide) hforks.kept).1, look_some he]
    exact congrArg (Prod.mk _) (congrFun hmem _)

/-- The first process asks for a page, does not touch it, and forks: the kernel panics. -/
theorem fork_untouched : ∃ (k₀ : Kmem) (x₀ x₁ : Kernel) (e : String), Booted bootImage k₀ ∧
    (system bootImage k₀).start x₀ ∧
    (system bootImage k₀).step x₀ (.mmap Ptable.initproc 0 fun _ => 4096, 4096) x₁ ∧
    (e = "copyuvm: pte should exist" ∨ e = "copyuvm: page not present") ∧
    run bootImage x₁ (.fork Ptable.initproc) = .error e ∧ ¬ Works bootImage x₁ Ptable.initproc := by
  obtain ⟨k₀, hboot, x₀, h0, hfirst, hlen⟩ := first_exists
  obtain ⟨d, hd, hnone, hpage⟩ := hfirst.dir
  obtain ⟨hzero, hcount⟩ := hpage (by omega)
  have hstart : ((system bootImage k₀).guard fun x e => Guard x e.1).Reach x₀ := .start h0
  have hgood := reach_good hboot (fun _ _ hok => hok) (hstart.guarded hfirst.mmap trivial)
  have hstep := hfirst.mmap
  have hslot := hfirst.slot { x₀.tasks Ptable.initproc with sz := 8192 }
  generalize hx₁ : x₀.setTask Ptable.initproc
    { x₀.tasks Ptable.initproc with sz := 8192 } = x₁ at hgood hstep hslot
  have htask₁ : (x₁.tasks Ptable.initproc).state = .runnable ∧
      (x₁.tasks Ptable.initproc).sz = 8192 := by
    rw [← hx₁, setTask_task]
    exact ⟨hfirst.initproc.1, rfl⟩
  have hmem : x₁.mem = x₀.mem := by rw [← hx₁]; rfl
  rw [← hmem] at hd hcount
  have hin : 1 < pages (x₁.tasks Ptable.initproc).sz := by
    rw [htask₁.2]
    decide
  have hmany : 1 + Eager.copyPages 1 ≤ x₁.mem.kmem.freelist.length := by
    rw [Eager.copyPages]
    omega
  obtain ⟨e, he, hfork⟩ := hgood.fork_absent htask₁.1 hd hin (hnone 1 (by decide) (by decide)) hslot
    hmany
  refine ⟨k₀, x₀, x₁, e, hboot, h0, hstep, he, hfork, ?_⟩
  rintro ⟨r, x', hok, -⟩
  rw [hfork] at hok
  cases hok

end OsCodes.Paging.Lazy
