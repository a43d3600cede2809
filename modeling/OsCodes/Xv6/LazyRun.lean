/-
  What every call in xv6-public keeps.

  The books of the allocator are right for all references (`Good`), with what a call must not do for
  this left to its guard.  `Keeps` says what a call does to sizes and to the pages mapped: an access
  maps no page above the size where the guard `Tight` allows it.  A call is a step of one process
  beside the others, so each lemma is about one process.

  Structure:

  1. `Guard` and `Tight` are the guards, on the call and the state it is made in;
  2. `Good.beside` and `Keeps.beside` reduce a call to its process; each kind of call has a lemma;
  3. `fork` is the longest: it fails for lack of memory, copies everything, or stops at the first
     page that is absent, which `Forks` lists as its three outcomes;
  4. `Good.step` and `reach_good` put the calls together, and `userinit_spec` is where the runs
     start: with 68 pages there is a first process, and its page is there if memory lasts.
-/
import OsCodes.Xv6.LazyLaw

namespace OsCodes.Paging.Lazy

open Refcount
open Xv6 (Image Kmem Page PgDir Pte kernbase pgsize uint userPte userPages pages uses_pos)
open Ptable (Slot)

/-! ## Guards -/

/-- Memory above `KERNBASE` is not touched.  Only a size that `mmap` has raised above `KERNBASE` can
    bring a process to it. -/
def Guard (x : Kernel) : Call → Prop
  | .sbrk p esp mem => ∀ n, argint (x.tasks p).sz mem esp 0 = some n → n.toInt < 0 →
      (x.tasks p).sz ≤ kernbase
  | .access p addr _ => kernbase ≤ addr → (x.tasks p).sz < kernbase
  | _ => True

/-- `mmap` does not wrap around, and no page is touched at or above the size that `trap` would map:
    the page at the size itself, or the last page of the process where it has not been mapped. -/
def Tight (x : Kernel) : Call → Prop
  | .mmap p esp mem => ∀ n, argint (x.tasks p).sz mem esp 0 = some n → 0 < n.toInt →
      n.toInt % pgsize = 0 → (x.tasks p).sz + n.toInt + pgsize ≤ 4294967296
  | .access p addr _ => ∀ d, x.mem.dirs p = some d → (x.tasks p).sz ≤ addr →
      (x.tasks p).sz < addr / pgsize * pgsize ∨ d.entry (addr / pgsize) ≠ none
  | _ => True

/-! ## Invariants -/

section Invariants

variable {img : Image} {pool : Finset Nat} {hvalid : ∀ p ∈ pool, img.endPage ≤ p ∧ p < Xv6.frames}
  {E : String → Prop} {x x' : Kernel} {p : Slot} {d : PgDir} {k : Kmem} {call : Call}

/-- The books are right for all references; a process that may run has memory, and a slot that is not
    used has none. -/
structure Good (img : Image) (pool : Finset Nat)
    (hvalid : ∀ p ∈ pool, img.endPage ≤ p ∧ p < Xv6.frames) (x : Kernel) : Prop where
  acct : (Plain.books img pool hvalid).Acct x.mem.kmem x.mem.refs
  unused : ∀ p, (x.tasks p).state = .unused → x.mem.dirs p = none
  runnable : ∀ p, (x.tasks p).state = .runnable → x.mem.dirs p ≠ none

/-- What a call does to sizes and to the pages mapped. -/
structure Keeps (x : Kernel) (call : Call) (x' : Kernel) : Prop where
  size : ∀ p, (x'.tasks p).sz < kernbase ∨ (∃ q, (x'.tasks p).sz ≤ (x.tasks q).sz) ∨
    ∃ esp mem, call = .mmap p esp mem ∧ (x'.tasks p).sz = (sysMmap (x.tasks p).sz esp mem).2
  below : Tight x call → ∀ p d', x'.mem.dirs p = some d' → Below d' (x'.tasks p).sz ∨
    ∃ d, x.mem.dirs p = some d ∧ (Below d (x.tasks p).sz → Below d' (x'.tasks p).sz)

/-- Process `p` alone has another directory `o` or another task. -/
structure Beside (x : Kernel) (p : Slot) (o : Option PgDir) (k : Kmem) (x' : Kernel) : Prop where
  mem_eq : x'.mem = x.mem.setDir p o k
  tasks_eq : ∀ q, q ≠ p → x'.tasks q = x.tasks q

theorem Good.live (h : Good img pool hvalid x) (hd : x.mem.dirs p = some d) :
    (Plain.books img pool hvalid).Acct x.mem.kmem (x.mem.others p + d.uses) := by
  have hacct := h.acct
  rw [Counts.refs_eq x.mem p, hd] at hacct
  exact hacct

/-- **A step of one process** beside the others. -/
theorem Good.beside {o : Option PgDir} (h : Good img pool hvalid x) (hb : Beside x p o k x')
    (hacct : (Plain.books img pool hvalid).Acct k (x.mem.others p + Counts.share o))
    (ho : (x'.tasks p).state = .unused → o = none)
    (ho' : (x'.tasks p).state = .runnable → o ≠ none) : Good img pool hvalid x' := by
  refine ⟨?_, fun q hq => ?_, fun q hq => ?_⟩
  · rw [hb.mem_eq, Counts.refs_setDir]
    exact hacct
  · rw [hb.mem_eq]
    show Function.update x.mem.dirs p o q = none
    by_cases hqp : q = p
    · rw [hqp, Function.update_self]
      exact ho (by rw [← hqp]; exact hq)
    · rw [Function.update_of_ne hqp]
      rw [hb.tasks_eq q hqp] at hq
      exact h.unused q hq
  · rw [hb.mem_eq]
    show Function.update x.mem.dirs p o q ≠ none
    by_cases hqp : q = p
    · rw [hqp, Function.update_self]
      exact ho' (by rw [← hqp]; exact hq)
    · rw [Function.update_of_ne hqp]
      rw [hb.tasks_eq q hqp] at hq
      exact h.runnable q hq

/-- What is kept of the one process is kept of all. -/
theorem Keeps.beside {o : Option PgDir} (hb : Beside x p o k x')
    (hsize : (x'.tasks p).sz < kernbase ∨ ∃ q, (x'.tasks p).sz ≤ (x.tasks q).sz)
    (hbelow : Tight x call → ∀ d', o = some d' → Below d' (x'.tasks p).sz ∨
      ∃ d, x.mem.dirs p = some d ∧ (Below d (x.tasks p).sz → Below d' (x'.tasks p).sz)) :
    Keeps x call x' := by
  constructor
  · intro q
    by_cases hqp : q = p
    · rw [hqp]
      exact hsize.imp_right .inl
    · rw [hb.tasks_eq q hqp]
      exact .inr (.inl ⟨q, le_rfl⟩)
  · intro hok q d' hd'
    rw [hb.mem_eq] at hd'
    have hd' : Function.update x.mem.dirs p o q = some d' := hd'
    by_cases hqp : q = p
    · rw [hqp, Function.update_self] at hd'
      rw [hqp]
      exact hbelow hok d' hd'
    · rw [Function.update_of_ne hqp] at hd'
      rw [hb.tasks_eq q hqp]
      exact .inr ⟨d', hd', id⟩

/-- Directories and sizes stay as they are. -/
theorem Keeps.same (hdirs : x'.mem.dirs = x.mem.dirs)
    (hsz : ∀ p, (x'.tasks p).sz = (x.tasks p).sz) : Keeps x call x' := by
  constructor
  · intro q
    exact .inr (.inl ⟨q, le_of_eq (hsz q)⟩)
  · intro _ q d' hd'
    rw [hdirs] at hd'
    refine .inr ⟨d', hd', ?_⟩
    rw [hsz q]
    exact id

/-! ## Calls -/

/-- A call that looks up a directory. -/
theorem with_dir {α : Type} {f : PgDir → Except String α} {Q : α → Prop}
    (hf : ∀ d, x.mem.dirs p = some d → Allows (fun _ => True) (f d) Q) :
    Allows (fun _ => True) (x.mem.dir p >>= f) Q := by
  cases hd : x.mem.dirs p with
  | none =>
    rw [Counts.State.dir, hd]
    exact .stop trivial
  | some d =>
    rw [Counts.dir_eq hd]
    exact hf d hd

theorem beside_resize (x : Kernel) (p : Slot) (sz : Nat) (d : PgDir) (k : Kmem) :
    Beside x p (some d) k (resize x p sz d k) :=
  ⟨rfl, fun _ hq => Function.update_of_ne hq _ _⟩

theorem resize_task (x : Kernel) (p : Slot) (sz : Nat) (d : PgDir) (k : Kmem) :
    (resize x p sz d k).tasks p = { x.tasks p with sz := sz } := Function.update_self _ _ _

/-- A process gets another size and directory. -/
theorem Good.resize {sz : Nat} (h : Good img pool hvalid x)
    (hrun : (x.tasks p).state = .runnable)
    (hacct : (Plain.books img pool hvalid).Acct k (x.mem.others p + d.uses)) :
    Good img pool hvalid (resize x p sz d k) := by
  refine h.beside (beside_resize x p sz d k) hacct (fun hno => ?_) fun _ hno => by cases hno
  rw [resize_task] at hno
  rw [hrun] at hno
  cases hno

theorem Keeps.resize {sz : Nat} (hsize : sz < kernbase ∨ sz ≤ (x.tasks p).sz)
    (hbelow : Below d sz ∨ ∃ d₀, x.mem.dirs p = some d₀ ∧ (Below d₀ (x.tasks p).sz → Below d sz)) :
    Keeps x call (resize x p sz d k) := by
  refine .beside (beside_resize x p sz d k) ?_ fun _ d' hd' => ?_
  · rw [resize_task]
    exact hsize.imp_right fun hle => ⟨p, hle⟩
  · rw [resize_task, ← Option.some.inj hd']
    exact hbelow

theorem Good.sbrk {esp : Nat} {mem : Words} (h : Good img pool hvalid x)
    (hrun : (x.tasks p).state = .runnable) (hok : Guard x (.sbrk p esp mem)) :
    Allows (fun _ => True) (sysSbrk img p esp mem x) fun r =>
      Good img pool hvalid r.2 ∧ Keeps x (.sbrk p esp mem) r.2 := by
  rw [sysSbrk]
  split
  case h_1 => exact .ok ⟨h, .same rfl fun _ => rfl⟩
  case h_2 n hn =>
    refine with_dir fun d hd => ?_
    apply ((growproc_spec (hok n hn) (fun _ => trivial) (h.live hd)).and growproc_size).bind
    rintro ⟨r, sz, d', k⟩ ⟨⟨hacct, hbelow⟩, hsize⟩
    exact .ok ⟨h.resize hrun hacct, .resize hsize (.inr ⟨d, hd, hbelow⟩)⟩

theorem Good.exec {phs : List ProgHdr} {args : Bool} (h : Good img pool hvalid x)
    (hrun : (x.tasks p).state = .runnable) :
    Allows (fun _ => True) (exec img p phs args x) fun r =>
      Good img pool hvalid r.2 ∧ Keeps x (.exec p phs args) r.2 := by
  rw [Lazy.exec]
  refine with_dir fun d hd => ?_
  apply (execImage_spec trivial (h.live hd)).bind
  rintro ⟨new, k⟩ hnew
  cases new with
  | none =>
    refine .ok ⟨⟨?_, h.unused, h.runnable⟩, .same rfl fun _ => rfl⟩
    show (Plain.books img pool hvalid).Acct k x.mem.refs
    rw [Counts.refs_eq x.mem p, hd]
    exact hnew
  | some r =>
    obtain ⟨sz, d'⟩ := r
    obtain ⟨hacct, hbelow, hsz⟩ := hnew
    rw [add_right_comm] at hacct
    apply (freevm_spec hacct).bind
    rintro k₁ ⟨hacct₁, -⟩
    exact .ok ⟨h.resize hrun hacct₁, .resize (.inl hsz) (.inl hbelow)⟩

theorem beside_task (x : Kernel) (p : Slot) (t : Task) :
    Beside x p (x.mem.dirs p) x.mem.kmem (x.setTask p t) := by
  refine ⟨?_, fun _ hq => Function.update_of_ne hq _ _⟩
  rw [Counts.State.setDir, Function.update_eq_self]
  rfl

theorem setTask_task (x : Kernel) (p : Slot) (t : Task) : (x.setTask p t).tasks p = t :=
  Function.update_self _ _ _

/-- A process gets another task. -/
theorem Good.setTask {t : Task} (h : Good img pool hvalid x)
    (ht : t.state = .zombie ∨ t.state = (x.tasks p).state) :
    Good img pool hvalid (x.setTask p t) := by
  refine h.beside (beside_task x p t) ?_ (fun ho => ?_) fun ho => ?_
  · rw [← Counts.refs_eq]
    exact h.acct
  · rw [setTask_task] at ho
    cases ht with
    | inl hz => rw [hz] at ho; cases ho
    | inr hsame => exact h.unused p (hsame ▸ ho)
  · rw [setTask_task] at ho
    cases ht with
    | inl hz => rw [hz] at ho; cases ho
    | inr hsame => exact h.runnable p (hsame ▸ ho)

theorem Good.exit (h : Good img pool hvalid x) (p : Slot) :
    Allows (fun _ => True) (exit p x) fun r =>
      Good img pool hvalid r.2 ∧ Keeps x call r.2 := by
  rw [Lazy.exit]
  split
  case isTrue => exact .stop trivial
  case isFalse =>
    refine .ok ⟨h.setTask (.inl rfl), .beside (beside_task x p _) ?_ ?_⟩
    · rw [setTask_task]
      exact .inr ⟨p, le_rfl⟩
    · intro _ d hd
      rw [setTask_task]
      exact .inr ⟨d, hd, id⟩

/-- The sizes that `mmap` leaves. -/
theorem sysMmap_size (sz esp : Nat) (mem : Words) : (sysMmap sz esp mem).2 = sz ∨
    ∃ n, argint sz mem esp 0 = some n ∧ 0 < n.toInt ∧ n.toInt % pgsize = 0 ∧
      (sysMmap sz esp mem).2 = uint (sz + n.toInt) := by
  unfold sysMmap
  split
  case h_1 => exact .inl rfl
  case h_2 n hn =>
    split
    case isTrue => exact .inl rfl
    case isFalse hok =>
      rw [not_or, Int.not_le, not_not] at hok
      exact .inr ⟨n, hn, hok.1, hok.2, rfl⟩

theorem Good.mmap {esp : Nat} {mem : Words} (h : Good img pool hvalid x) (p : Slot) :
    Allows (fun _ => True) (run img x (.mmap p esp mem)) fun r =>
      Good img pool hvalid r.2 ∧ Keeps x (.mmap p esp mem) r.2 := by
  refine .ok ⟨h.setTask (.inr rfl), ?_, fun hok q d' hd' => ?_⟩
  · intro q
    by_cases hqp : q = p
    · rw [hqp, setTask_task]
      exact .inr (.inr ⟨esp, mem, rfl, rfl⟩)
    · rw [(beside_task x p _).tasks_eq q hqp]
      exact .inr (.inl ⟨q, le_rfl⟩)
  · refine .inr ⟨d', hd', ?_⟩
    by_cases hqp : q = p
    · rw [hqp, setTask_task]
      refine fun hb => hb.mono ?_ fun _ _ => id
      show (x.tasks p).sz ≤ (sysMmap (x.tasks p).sz esp mem).2
      cases sysMmap_size (x.tasks p).sz esp mem with
      | inl hsame => exact le_of_eq hsame.symm
      | inr hgrow =>
        obtain ⟨n, hn, hpos, hmod, hsize⟩ := hgrow
        have hfits : ((x.tasks p).sz : Int) + n.toInt + 4096 ≤ 4294967296 := hok n hn hpos hmod
        rw [hsize]
        show (x.tasks p).sz ≤ (((x.tasks p).sz + n.toInt) % 4294967296).toNat
        omega
    · rw [(beside_task x p _).tasks_eq q hqp]
      exact id

/-- The page that `trap` has mapped. -/
theorem pgfltPage_some {sz addr v : Nat} (h : pgfltPage sz addr = some v) :
    v = addr / pgsize ∧ v * pgsize ≤ sz := by
  rw [pgfltPage] at h
  have h : (if sz < addr / 4096 * 4096 then none
    else some (addr / 4096 * 4096 / 4096)) = some v := h
  show v = addr / 4096 ∧ v * 4096 ≤ sz
  split at h
  case isTrue => cases h
  case isFalse hle =>
    have hv := Option.some.inj h
    omega

/-- The page that `trap` has mapped is a user page, away from kernel memory. -/
theorem pgfltPage_user {addr v : Nat} {write : Bool} (hok : Guard x (.access p addr write))
    (hv : pgfltPage (x.tasks p).sz addr = some v) : v < userPages := by
  obtain ⟨hpage, hle⟩ := pgfltPage_some hv
  have hpage : v = addr / 4096 := hpage
  have hle : v * 4096 ≤ (x.tasks p).sz := hle
  have hok : 2147483648 ≤ addr → (x.tasks p).sz < 2147483648 := hok
  show v < 524288
  omega

theorem Good.access {addr : Nat} {write : Bool} (h : Good img pool hvalid x)
    (hrun : (x.tasks p).state = .runnable) (hok : Guard x (.access p addr write)) :
    Allows (fun _ => True) (access img p addr write x) fun r =>
      Good img pool hvalid r.2 ∧ Keeps x (.access p addr write) r.2 := by
  rw [Lazy.access]
  refine with_dir fun d hd => ?_
  split
  case h_1 => exact .ok ⟨h, .same rfl fun _ => rfl⟩
  case h_2 =>
    split
    case h_1 => exact h.exit p
    case h_2 v hv =>
      obtain ⟨hpage, hle⟩ := pgfltPage_some hv
      have hpage : v = addr / 4096 := hpage
      have hle : v * 4096 ≤ (x.tasks p).sz := hle
      apply (Eager.allocateOnPgflt_spec (pgfltPage_user hok hv) (fun _ => trivial)
        (h.live hd)).bind
      rintro ⟨d', k⟩ ⟨hacct, -, hentry⟩
      have hentry : d'.entry = d.entry ∨
        d.entry v = none ∧ ∃ e, d'.entry = Function.update d.entry v (some e) ∧ _ := hentry
      have hb : Beside x p (some d') k { x with mem := x.mem.setDir p (some d') k } :=
        ⟨rfl, fun _ _ => rfl⟩
      refine .ok ⟨h.beside hb hacct (fun hno => ?_) fun _ hno => (by cases hno),
        .beside hb (.inr ⟨p, le_rfl⟩) ?_⟩
      · have hno : (x.tasks p).state = .unused := hno
        rw [hrun] at hno
        cases hno
      · intro htight d₁ hd₁
        rw [← Option.some.inj hd₁]
        refine .inr ⟨d, hd, fun hbelow => ?_⟩
        cases hentry with
        | inl heq => exact hbelow.mono le_rfl fun u _ hne => by rwa [heq] at hne
        | inr hmap =>
          obtain ⟨hnone, e, hset, -⟩ := hmap
          intro u hu hne
          by_cases huv : u = v
          · -- the page is below the size, or the access was not allowed
            have htight : (x.tasks p).sz ≤ addr → (x.tasks p).sz < addr / 4096 * 4096 ∨
              d.entry (addr / pgsize) ≠ none := htight d hd
            have hlt : addr < (x.tasks p).sz := by
              by_contra hge
              cases htight (by omega) with
              | inl hlt => omega
              | inr hne => exact hne ((congrArg d.entry hpage.symm).trans hnone)
            show u < ((x.tasks p).sz + 4096 - 1) / 4096
            omega
          · rw [hset, Function.update_of_ne huv] at hne
            exact hbelow u hu hne

theorem Good.freevm (h : Good img pool hvalid x) (p : Slot) :
    Allows (fun _ => True) (run img x (.freevm p)) fun r =>
      Good img pool hvalid r.2 ∧ Keeps x (.freevm p) r.2 := by
  refine with_dir fun d hd => ?_
  apply (freevm_spec (h.live hd)).bind
  rintro k ⟨hacct, -⟩
  have hb : Beside x p none k (Kernel.setTask { x with mem := x.mem.setDir p none k } p
      { x.tasks p with state := .unused }) := ⟨rfl, fun _ hq => Function.update_of_ne hq _ _⟩
  refine .ok ⟨h.beside hb ?_ (fun _ => rfl) fun hno => ?_,
    .beside hb ?_ fun _ d' hd' => by cases hd'⟩
  · show (Plain.books img pool hvalid).Acct k (x.mem.others p + 0)
    rw [add_zero]
    exact hacct
  · rw [setTask_task] at hno
    cases hno
  · rw [setTask_task]
    exact .inr ⟨p, le_rfl⟩

/-- The kernel takes a page for itself. -/
theorem Good.kalloc (h : Good img pool hvalid x) :
    Allows (fun _ => True) (run img x .kalloc) fun r =>
      Good img pool hvalid r.2 ∧ Keeps x .kalloc r.2 := by
  apply ((Plain.books img pool hvalid).kalloc_spec h.acct).bind
  rintro ⟨r, k⟩ htaken
  cases r with
  | none =>
    obtain rfl : k = x.mem.kmem := htaken
    exact .ok ⟨h, .same rfl fun _ => rfl⟩
  | some page =>
    obtain ⟨hzero, howned, -, -⟩ := htaken
    exact .ok ⟨⟨by rw [Counts.refs_insert hzero]; exact howned, h.unused, h.runnable⟩,
      .same rfl fun _ => rfl⟩

/-- The kernel gives back a page of its own. -/
theorem Good.kfree {page : Nat} (h : Good img pool hvalid x) (hp : page ∈ x.mem.priv) :
    Allows (fun _ => True) (run img x (.kfree page)) fun r =>
      Good img pool hvalid r.2 ∧ Keeps x (.kfree page) r.2 := by
  have hacct := h.acct
  rw [Counts.refs_erase hp x.mem.kmem] at hacct
  apply (kfree_owner hacct).bind
  rintro k ⟨hacct', -⟩
  exact .ok ⟨⟨hacct', h.unused, h.runnable⟩, .same rfl fun _ => rfl⟩

/-! ## `fork` -/

/-- The child has the pages of the parent, with their contents. -/
structure Copied (x : Kernel) (p : Slot) (d : PgDir) (x' : Kernel) (np : Slot) (d' : PgDir) :
    Prop where
  slot : unusedSlot x = some np
  size_eq : (x'.tasks np).sz = (x.tasks p).sz
  dir_eq : x'.mem.dirs np = some d'
  page : ∀ u, u < pages (x.tasks p).sz → u < userPages ∧ ∃ e e', d.entry u = some e ∧
    d'.entry u = some e' ∧ e'.toPerm = e.toPerm ∧ x'.mem.kmem.mem e'.page = x.mem.kmem.mem e.page

/-- `fork` cannot go on: there is no slot, or memory runs out at a page that is not behind an absent
    one. -/
def Short (x : Kernel) (p : Slot) (d : PgDir) : Prop :=
  unusedSlot x = none ∨ x.mem.kmem.freelist.length < 66 ∨ ∃ j, j < pages (x.tasks p).sz ∧
    (∀ u, u ≤ j → d.entry u ≠ none) ∧
    x.mem.kmem.freelist.length < 1 + Eager.copyPages (j + 1)

/-- What `fork` leaves. -/
structure Forks (img : Image) (pool : Finset Nat)
    (hvalid : ∀ p ∈ pool, img.endPage ≤ p ∧ p < Xv6.frames) (x : Kernel) (p : Slot) (d : PgDir)
    (r : Int × Kernel) : Prop where
  good : Good img pool hvalid r.2
  keeps : Keeps x (.fork p) r.2
  parent : r.2.mem.dirs p = some d
  kept : ∀ u e, u < userPages → d.entry u = some e →
    r.2.mem.kmem.mem e.page = x.mem.kmem.mem e.page
  outcome : (r.1 = -1 ∧ Short x p d) ∨ ∃ np d', Copied x p d r.2 np d'

/-- A slot that `allocproc` finds has no memory. -/
theorem Good.slot {np : Slot} (h : Good img pool hvalid x) (hslot : unusedSlot x = some np) :
    (x.tasks np).state = .unused ∧ x.mem.dirs np = none := by
  have hstate : (x.tasks np).state = .unused := by simpa using Ptable.find_some hslot
  exact ⟨hstate, h.unused np hstate⟩

/-- Some user page is absent. -/
theorem Good.gap (h : Good img pool hvalid x) (hd : x.mem.dirs p = some d) :
    ∃ v, v < userPages ∧ d.entry v = none := by
  have hlive := h.live hd
  refine exists_absent (fun q => ?_) hlive
  have hone := hlive.single q
  rw [Refs.total_add, Refs.total, Refs.total] at hone
  omega

/-- All references, where a slot has no memory. -/
theorem Good.others_eq {np : Slot} (h : Good img pool hvalid x) (hslot : unusedSlot x = some np) :
    x.mem.others np = x.mem.refs := by
  rw [Counts.refs_eq x.mem np, (h.slot hslot).2]
  exact (add_zero _).symm

/-- A fork that fails leaves memory as it was. -/
theorem Good.undone {np : Slot} (h : Good img pool hvalid x) (hd : x.mem.dirs p = some d)
    (hslot : unusedSlot x = some np) (hmem : x'.mem = { x.mem with kmem := k })
    (hacct : (Plain.books img pool hvalid).Acct k x.mem.refs)
    (hkept : Kept x.mem.refs x.mem.kmem k) (hfailed : Failed x np x') (hshort : Short x p d) :
    Forks img pool hvalid x p d (-1, x') := by
  have hsame : Function.update x.mem.dirs np none = x.mem.dirs := by
    rw [← (h.slot hslot).2, Function.update_eq_self]
  have hb : Beside x np none k x' := by
    refine ⟨?_, hfailed.others⟩
    rw [hmem]
    show _ = Counts.State.mk k (Function.update x.mem.dirs np none) x.mem.priv
    rw [hsame]
  have hgood : Good img pool hvalid x' := by
    refine h.beside hb ?_ (fun _ => rfl) fun hno => ?_
    · show (Plain.books img pool hvalid).Acct k (x.mem.others np + 0)
      rw [add_zero, h.others_eq hslot]
      exact hacct
    · rw [hfailed.unused] at hno
      cases hno
  have hdirs : x'.mem.dirs = x.mem.dirs := by rw [hmem]
  refine ⟨hgood, .same hdirs hfailed.sz_eq, hdirs ▸ hd, fun u e hu he => ?_, .inl ⟨rfl, hshort⟩⟩
  show x'.mem.kmem.mem e.page = _
  rw [hmem]
  refine hkept _ ?_
  rw [Counts.refs_eq x.mem p, hd, Refs.total_add]
  exact Nat.add_pos_right _ (uses_pos hu he)

/-- A fork that makes a child. -/
theorem Good.forked {np : Slot} {d' : PgDir} {kstack : Nat} {k₁ : Kmem}
    (h : Good img pool hvalid x) (hnp : p ≠ np) (hd : x.mem.dirs p = some d)
    (hslot : unusedSlot x = some np) (hfresh : x.mem.refs.total kstack = 0)
    (howned : (Plain.books img pool hvalid).Acct k₁ (x.mem.refs + .owner kstack))
    (hmem : x'.mem = Counts.State.setDir
      { x.mem with kmem := k, priv := insert kstack x.mem.priv } np (some d') k)
    (hacct : (Plain.books img pool hvalid).Acct k (x.mem.refs + .owner kstack + d'.uses))
    (habove : Below d' (x.tasks p).sz)
    (hkept : ∀ u e, u < userPages → d.entry u = some e → k.mem e.page = x.mem.kmem.mem e.page)
    (hpages : ∀ u, u < pages (x.tasks p).sz → u < userPages ∧ ∃ e e', d.entry u = some e ∧
      d'.entry u = some e' ∧ e'.toPerm = e.toPerm ∧ k.mem e'.page = x.mem.kmem.mem e.page)
    (hchild : (x'.tasks np).sz = (x.tasks p).sz ∧ (x'.tasks np).state = .runnable)
    (htasks : ∀ q, q ≠ np → x'.tasks q = x.tasks q) (pid : Int) :
    Forks img pool hvalid x p d (pid, x') := by
  -- first the kernel stack, then the child's memory
  generalize hy : ({ x with mem := { x.mem with
    kmem := k₁, priv := insert kstack x.mem.priv } } : Kernel) = y
  have hrefs : y.mem.refs = x.mem.refs + .owner kstack := by
    rw [← hy]
    exact Counts.refs_insert hfresh k₁
  have hgood : Good img pool hvalid y := by
    refine ⟨?_, by rw [← hy]; exact h.unused, by rw [← hy]; exact h.runnable⟩
    rw [hrefs, ← hy]
    exact howned
  have hslot' : unusedSlot y = some np := by
    rw [← hy]
    exact hslot
  have hb : Beside y np (some d') k x' := by
    rw [← hy]
    exact ⟨hmem, htasks⟩
  have hkeeps : Keeps y (.fork p) x' := by
    refine .beside hb (.inr ⟨p, ?_⟩) fun _ d₁ hd₁ => .inl ?_
    · rw [← hy]
      exact le_of_eq hchild.1
    · rw [hchild.1, ← Option.some.inj hd₁]
      exact habove
  have hkmem : x'.mem.kmem = k := by rw [hmem]; rfl
  refine ⟨hgood.beside hb ?_ (fun hno => ?_) (fun _ hno => by cases hno), ?_, ?_, ?_,
    .inr ⟨np, d', hslot, hchild.1, ?_, ?_⟩⟩
  · rw [hgood.others_eq hslot', hrefs]
    exact hacct
  · rw [hchild.2] at hno
    cases hno
  · rw [← hy] at hkeeps
    exact ⟨hkeeps.size, hkeeps.below⟩
  · show x'.mem.dirs p = _
    rw [hmem]
    exact (Function.update_of_ne hnp _ _).trans hd
  · intro u e hu he
    show x'.mem.kmem.mem e.page = _
    rw [hkmem]
    exact hkept u e hu he
  · show x'.mem.dirs np = _
    rw [hmem]
    exact Function.update_self _ _ _
  · show ∀ u, _
    rw [hkmem]
    exact hpages

/-- **`fork`** copies the whole memory of the parent, fails for lack of memory, or stops at the first
    absent page. -/
theorem Good.fork (h : Good img pool hvalid x) (hrun : (x.tasks p).state = .runnable)
    (hd : x.mem.dirs p = some d)
    (habsent : ∀ u, u < pages (x.tasks p).sz → d.entry u = none →
      (∀ w, w < u → d.entry w ≠ none) → unusedSlot x ≠ none →
      1 + Eager.copyPages u ≤ x.mem.kmem.freelist.length →
      E "copyuvm: pte should exist" ∧ E "copyuvm: page not present") :
    Allows E (Eager.fork img p x) (Forks img pool hvalid x p d) := by
  obtain ⟨copyuvm, heq, hargs⟩ := Eager.fork_eq
  rw [heq]
  cases hslot : unusedSlot x with
  | none =>
    rw [fork_no_slot hslot]
    exact .ok ⟨h, .same rfl fun _ => rfl, hd, fun _ _ _ _ => rfl, .inl ⟨rfl, .inl hslot⟩⟩
  | some np =>
    have hunused := (h.slot hslot).1
    have hnp : p ≠ np := by
      rintro rfl
      rw [hrun] at hunused
      cases hunused
    obtain ⟨⟨kstack, k₁⟩, hkalloc, htaken, hcost⟩ :=
      (((Plain.books img pool hvalid).kalloc_spec h.acct).and kalloc_cost).exists_ok
    have hkalloc : plain.kalloc x.mem.kmem = .ok (kstack, k₁) := hkalloc
    cases kstack with
    | none =>
      obtain rfl : k₁ = x.mem.kmem := htaken
      have hzero : x.mem.kmem.freelist.length = 0 := hcost.2 rfl
      obtain ⟨x', hfork, hmem, hfailed⟩ := fork_no_stack hslot hkalloc
      rw [hfork]
      exact .ok (h.undone hd hslot hmem h.acct (fun _ _ => rfl) hfailed (.inr (.inl (by omega))))
    | some kstack =>
      obtain ⟨hfresh, howned, -, hmem⟩ := htaken
      have hlen : k₁.freelist.length + 1 = x.mem.kmem.freelist.length := hcost.1
      have hmem : k₁.mem = x.mem.kmem.mem := hmem
      have hused : ∀ u e, u < userPages → d.entry u = some e →
          0 < (x.mem.refs + .owner kstack).total e.page := fun u e hu he => by
        have hpos := uses_pos hu he
        rw [Refs.total_add, Counts.refs_eq x.mem p, hd, Refs.total_add]
        exact Nat.add_pos_left (Nat.add_pos_right _ hpos) _
      have hcopy := Eager.copyuvm_spec (h.gap hd) hused (E := E) (fun u hu hnone hw hle =>
        habsent u hu hnone hw (by rw [hslot]; exact fun hno => by cases hno) (by omega)) howned
      have hsame : Function.update x.mem.dirs p (some d) = x.mem.dirs := by
        rw [← hd, Function.update_eq_self]
      cases hr : Eager.copyuvm img d (x.tasks p).sz k₁ with
      | error e =>
        rw [hr] at hcopy
        rw [fork_panics hslot hkalloc hd (hargs hr)]
        exact hcopy
      | ok r =>
        obtain ⟨child, k₂⟩ := r
        rw [hr] at hcopy
        have hcopy : Eager.Forked (Plain.books img pool hvalid) (x.mem.refs + .owner kstack) d
          (x.tasks p).sz k₁ child k₂ := hcopy
        cases child with
        | none =>
          obtain ⟨hacct, hshort⟩ := hcopy.failed rfl
          obtain ⟨k₃, hkfree, hacct₃, hkept₃⟩ := (kfree_owner hacct).exists_ok
          obtain ⟨x', hfork, hx', hfailed⟩ := fork_no_copy hslot hkalloc
            (Counts.notMem_priv hfresh) hd (hargs hr) hkfree
          rw [hfork]
          refine .ok (h.undone hd hslot ?_ hacct₃ ?_ hfailed (.inr ?_))
          · rw [hx', Counts.State.setDir, hsame]
          · refine ((Kept.of_mem hmem).trans (hcopy.kept.less fun q => ?_)).trans hkept₃
            rw [Refs.total_add]
            exact Nat.le_add_right _ _
          · rcases hshort with hlt | ⟨j, hj, hpres, hlt⟩
            · exact .inl (by omega)
            · exact .inr ⟨j, hj, hpres, by omega⟩
        | some d' =>
          obtain ⟨hacct, hpages, habove⟩ := hcopy.done d' rfl
          obtain ⟨x', hfork, hx', hchild, hothers⟩ := fork_child hslot hkalloc hd
            (hargs hr)
          have hx' : x'.mem = Counts.State.setDir
              (Counts.State.mk k₂ (Function.update x.mem.dirs p (some d))
                (insert kstack x.mem.priv)) np (some d') k₂ := hx'
          rw [hsame] at hx'
          rw [hfork]
          refine .ok (h.forked hnp hd hslot hfresh howned hx' hacct (fun u hu hne => ?_)
            (fun u e hu he => ?_) (fun u hu => ?_) hchild hothers _)
          · by_contra hge
            exact hne (habove u hu (Nat.le_of_not_lt hge))
          · rw [← hmem]
            exact hcopy.kept _ (hused u e hu he)
          · rw [← hmem]
            exact hpages u hu

/-! ## Every run -/

/-- **Every call keeps the books**, or ends with a panic. -/
theorem Good.step (h : Good img pool hvalid x) (hallowed : Allowed x call) (hok : Guard x call) :
    Allows (fun _ => True) (run img x call) fun r =>
      Good img pool hvalid r.2 ∧ Keeps x call r.2 := by
  cases call with
  | fork p =>
    obtain ⟨d, hd⟩ := Option.ne_none_iff_exists'.mp (h.runnable p hallowed)
    refine (h.fork hallowed hd fun _ _ _ _ _ _ => ⟨trivial, trivial⟩).mono fun r hr => ?_
    exact ⟨hr.good, hr.keeps⟩
  | exec p phs args => exact h.exec hallowed
  | sbrk p esp mem => exact h.sbrk hallowed hok
  | mmap p esp mem => exact h.mmap p
  | access p addr write => exact h.access hallowed hok
  | exit p => exact h.exit p
  | freevm p => exact h.freevm p
  | kalloc => exact h.kalloc
  | kfree page => exact h.kfree hallowed
  | write mem =>
    exact .ok ⟨⟨(Plain.books img pool hvalid).setMem mem h.acct, h.unused, h.runnable⟩,
      .same rfl fun _ => rfl⟩

/-! ## The first process -/

/-- What `userinit` leaves, for a kernel with the memory `k₀`: one process of one page.  The page is
    there if memory lasts. -/
structure First (img : Image) (pool : Finset Nat)
    (hvalid : ∀ p ∈ pool, img.endPage ≤ p ∧ p < Xv6.frames) (k₀ : Kmem) (x : Kernel) : Prop where
  good : Good img pool hvalid x
  initproc : (x.tasks Ptable.initproc).state = .runnable ∧
    (x.tasks Ptable.initproc).sz = pgsize
  others : ∀ p, p ≠ Ptable.initproc → x.tasks p = (boot k₀).tasks p ∧ x.mem.dirs p = none
  dir : ∃ d, x.mem.dirs Ptable.initproc = some d ∧
    (∀ v, v < userPages → v ≠ 0 → d.entry v = none) ∧
    (68 ≤ k₀.freelist.length → d.entry 0 ≠ none ∧
      k₀.freelist.length = x.mem.kmem.freelist.length + 68)

/-- What `inituvm` leaves: the page is mapped, or lost to the kernel for lack of a page table. -/
def Inited (B : Books plain img) (R : Refs Nat) (d : PgDir) (k : Kmem) :
    Option Nat × PgDir × Kmem → Prop
  | (none, d', k') => B.Acct k' (R + d'.uses) ∧
      (∃ e, d'.entry = Function.update d.entry 0 (some e)) ∧ d'.tabs = d.tabs ∪ span 0 1 ∧
      room d' k' + 1 = room d k
  | (some lost, d', k') => B.Acct k' (R + d'.uses + .sharer lost) ∧ d'.entry = d.entry ∧
      room d k ≤ (d.tabs ∪ span 0 1).card

theorem inituvm_spec {B : Books plain img} {R : Refs Nat} (hnone : d.entry 0 = none)
    (hstop : k.freelist.length = 0 → E "trap") (h : B.Acct k (R + d.uses)) :
    Allows E (inituvm d k) (Inited B R d k) := by
  rw [inituvm]
  apply ((B.kalloc_spec h).and kalloc_cost).bind
  rintro ⟨mem, k₁⟩ ⟨htaken, hlen, hzero⟩
  cases mem with
  | none => exact .stop (hstop (hzero rfl))
  | some mem =>
    obtain ⟨-, -, hshared, -⟩ := htaken
    have hlen : k₁.freelist.length + 1 = k.freelist.length := hlen
    show Allows E (mappages plain d 0 1 mem ⟨true, true, false⟩ _ >>= _) _
    apply ((mappages_one (by decide) (fun hne => absurd hnone hne)
      (B.setMem (Function.update k₁.mem mem fun _ => 0) hshared)).and
      (mappages_cost (by decide))).bind
    rintro ⟨mapped, d₁, k₂⟩ ⟨hone, htakes⟩
    have hone : MapOne B R d { k₁ with mem := Function.update k₁.mem mem fun _ => 0 } 0 _ mapped d₁
      k₂ := hone
    have htakes : Takes (span 0 1) d { k₁ with mem := Function.update k₁.mem mem fun _ => 0 } mapped
      d₁ k₂ := htakes
    have hroom : room d { k₁ with mem := Function.update k₁.mem mem fun _ => 0 } + 1 = room d k := by
      show k₁.freelist.length + d.tabs.card + 1 = k.freelist.length + d.tabs.card
      omega
    cases mapped with
    | true =>
      obtain ⟨-, hacct, hentry⟩ := hone.done rfl
      exact .ok ⟨hacct, ⟨_, hentry⟩, htakes.done rfl, by rw [htakes.room_eq, hroom]⟩
    | false =>
      obtain ⟨hacct, hentry⟩ := hone.failed rfl
      have hlt := htakes.failed rfl
      refine .ok ⟨hacct, hentry, ?_⟩
      omega

/-- The first process is put into its slot. -/
theorem First.make {k₀ : Kmem} {mem : Counts.State Slot}
    (htasks : ∀ q, q ≠ Ptable.initproc → x.tasks q = (boot k₀).tasks q)
    (hdirs : mem.dirs = Function.update (fun _ => none) Ptable.initproc (some d))
    (hacct : (Plain.books img pool hvalid).Acct mem.kmem mem.refs)
    (hnone : ∀ v, v < userPages → v ≠ 0 → d.entry v = none)
    (hpage : 68 ≤ k₀.freelist.length → d.entry 0 ≠ none ∧
      k₀.freelist.length = mem.kmem.freelist.length + 68) :
    First img pool hvalid k₀ (Kernel.setTask { x with mem := mem } Ptable.initproc
      { x.tasks Ptable.initproc with sz := pgsize, state := .runnable }) := by
  generalize ht : ({ x.tasks Ptable.initproc with sz := pgsize, state := .runnable } : Task) = t
  have hself : (Kernel.setTask { x with mem := mem } Ptable.initproc t).tasks Ptable.initproc = t :=
    setTask_task _ _ t
  have hother : ∀ q, q ≠ Ptable.initproc →
      (Kernel.setTask { x with mem := mem } Ptable.initproc t).tasks q = (boot k₀).tasks q ∧
      mem.dirs q = none := fun q hq => by
    rw [hdirs, Function.update_of_ne hq]
    exact ⟨(Function.update_of_ne hq _ _).trans (htasks q hq), rfl⟩
  have hdir : mem.dirs Ptable.initproc = some d := by rw [hdirs, Function.update_self]
  refine ⟨⟨hacct, fun q hq => ?_, fun q hq => ?_⟩, by rw [hself, ← ht]; exact ⟨rfl, rfl⟩, hother,
    d, hdir, hnone, hpage⟩
  · by_cases hqi : q = Ptable.initproc
    · rw [hqi, hself, ← ht] at hq
      cases hq
    · exact (hother q hqi).2
  · by_cases hqi : q = Ptable.initproc
    · rw [hqi]
      show mem.dirs Ptable.initproc ≠ none
      rw [hdir]
      exact fun hno => by cases hno
    · rw [(hother q hqi).1] at hq
      cases hq

/-- **`userinit`** makes the first process when there are 68 pages. -/
theorem userinit_spec {k₀ : Kmem} (hboot : Booted img k₀) :
    Allows (fun _ => k₀.freelist.length < 68) (userinit img (boot k₀))
      (First img k₀.freelist.toFinset (Counts.boot_valid hboot) k₀) := by
  have hstart : (Plain.books img k₀.freelist.toFinset (Counts.boot_valid hboot)).Acct k₀
      (boot k₀).mem.refs := by
    rw [show (boot k₀).mem.refs = 0 from Counts.refs_empty k₀]
    exact ⟨.start hboot.filling.nodup, fun _ => Nat.zero_le 1⟩
  have hslot : unusedSlot (boot k₀) = some Ptable.initproc := rfl
  obtain ⟨⟨kstack, k₁⟩, hkalloc, htaken, hcost⟩ :=
    (((Plain.books img _ (Counts.boot_valid hboot)).kalloc_spec hstart).and kalloc_cost).exists_ok
  have hkalloc : Plain.kalloc (boot k₀).mem.kmem = .ok (kstack, k₁) := hkalloc
  rw [userinit]
  cases kstack with
  | none =>
    have hzero : k₀.freelist.length = 0 := hcost.2 rfl
    obtain ⟨x₁, halloc, -⟩ := allocproc_none (A := plain) hslot hkalloc
    rw [halloc]
    exact .stop (by omega)
  | some kstack =>
    obtain ⟨hfresh, howned, -, -⟩ := htaken
    have hlen : k₁.freelist.length + 1 = k₀.freelist.length := hcost.1
    obtain ⟨x₁, halloc, hx₁, -, hsz, htasks⟩ := allocproc_some (A := plain) hslot hkalloc
    have hrefs : x₁.mem.refs = (boot k₀).mem.refs + .owner kstack := by
      rw [hx₁]
      exact Counts.refs_insert hfresh k₁
    have hothers : x₁.mem.others Ptable.initproc = (boot k₀).mem.refs + .owner kstack := by
      rw [← hrefs, Counts.refs_eq _ Ptable.initproc, hx₁]
      exact (add_zero _).symm
    rw [← hothers] at howned
    have hk₁ : x₁.mem.kmem = k₁ := by rw [hx₁]
    rw [halloc]
    show Allows _ (setupkvm plain img x₁.mem.kmem >>= _) _
    rw [hk₁]
    apply ((setupkvm_spec howned).and setupkvm_cost).bind
    rintro ⟨r, k₂⟩ ⟨hnew, hcost⟩
    cases r with
    | none =>
      have hcost : k₁.freelist.length < 65 := hcost
      exact .stop (by omega)
    | some d =>
      obtain ⟨hacct, hempty, -⟩ := hnew
      obtain ⟨htabs, hroom⟩ := hcost
      have hroom : room d k₂ + 1 = k₁.freelist.length := hroom
      have hcard : d.tabs.card = 64 := by rw [htabs, card_kernelTabs]
      apply (inituvm_spec (hempty 0 (by decide)) (fun hzero => ?_) hacct).bind
      · rintro ⟨lost, d', k₃⟩ hinit
        have hdirs : ∀ o k, (x₁.mem.setDir Ptable.initproc o k).dirs =
            Function.update (fun _ => none) Ptable.initproc o := fun o k => by rw [hx₁]; rfl
        have hy := Counts.refs_setDir x₁.mem Ptable.initproc (some d') k₃
        cases lost with
        | none =>
          obtain ⟨hacct', ⟨e, hentry⟩, htabs', hroom'⟩ := hinit
          refine .ok (.make htasks (hdirs _ k₃) ?_ (fun v hv hne => ?_) fun _ => ⟨?_, ?_⟩)
          · show (Plain.books img _ (Counts.boot_valid hboot)).Acct k₃
              (x₁.mem.setDir Ptable.initproc (some d') k₃).refs
            rw [hy]
            exact hacct'
          · rw [hentry, Function.update_of_ne hne]
            exact hempty v hv
          · rw [hentry, Function.update_self]
            exact fun hno => by cases hno
          · have hcard' : d'.tabs.card = 65 := by
              rw [htabs', htabs, card_tables (n := 1) (by decide)]
            have hroom' : k₃.freelist.length + d'.tabs.card + 1 = room d k₂ := hroom'
            show k₀.freelist.length = k₃.freelist.length + 68
            omega
        | some lost =>
          obtain ⟨hacct', hentry, hshort⟩ := hinit
          refine .ok (.make htasks (hdirs _ k₃) ?_ (fun v hv hne => ?_) fun hmany => ?_)
          · have hzero : (x₁.mem.setDir Ptable.initproc (some d') k₃).refs.total lost = 0 := by
              have hone := hacct'.single lost
              rw [Refs.total_add, Refs.total_sharer, hit_self] at hone
              rw [hy]
              show (x₁.mem.others Ptable.initproc + d'.uses).total lost = 0
              omega
            have hins := Counts.refs_insert hzero k₃
            rw [hy] at hins
            refine Eq.mpr (congrArg ((Plain.books img _ (Counts.boot_valid hboot)).Acct k₃) hins) ?_
            refine hacct'.congr fun q => ?_
            rw [Refs.total_add, Refs.total_owner, Refs.total_add _ (Refs.sharer lost),
              Refs.total_sharer]
            rfl
          · rw [hentry]
            exact hempty v hv
          · rw [htabs, card_tables (n := 1) (by decide)] at hshort
            omega
      · rw [room] at hroom
        omega

/-- There is a first process. -/
theorem first_exists : ∃ (k₀ : Kmem) (hboot : Booted bootImage k₀) (x : Kernel),
    (system bootImage k₀).start x ∧
    First bootImage k₀.freelist.toFinset (Counts.boot_valid hboot) k₀ x ∧
    k₀.freelist.length = 56832 := by
  obtain ⟨k₀, hboot, hlen⟩ := boot_exists bootImage (by decide)
  have hlen : k₀.freelist.length = 56832 := hlen
  have hspec := userinit_spec hboot
  cases hx : userinit bootImage (boot k₀) with
  | ok x =>
    rw [hx] at hspec
    exact ⟨k₀, hboot, x, hx, hspec, hlen⟩
  | error e =>
    rw [hx] at hspec
    have hspec : k₀.freelist.length < 68 := hspec
    omega

/-- **In a guarded run** the books stay right. -/
theorem reach_good {k₀ : Kmem} (hboot : Booted img k₀) {ok : Kernel → Call × Int → Prop}
    (hok : ∀ x e, ok x e → Guard x e.1) (hr : ((system img k₀).guard ok).Reach x) :
    Good img k₀.freelist.toFinset (Counts.boot_valid hboot) x := by
  refine hr.invariant ?_ ?_
  · intro x hstart
    exact ((userinit_spec hboot).of_ok hstart).good
  · rintro x e x' h ⟨hguard, hallowed, hrun⟩
    exact ((h.step hallowed (hok x e hguard)).of_ok hrun).1

/-! ## Single steps -/

/-- An `mmap` by a process that may run. -/
theorem mmap_step (img : Image) (k₀ : Kmem) {esp sz : Nat} {mem : Words} {r : Int}
    (hrun : (x.tasks p).state = .runnable) (hres : sysMmap (x.tasks p).sz esp mem = (r, sz)) :
    (system img k₀).step x (.mmap p esp mem, r) (x.setTask p { x.tasks p with sz := sz }) := by
  refine ⟨hrun, ?_⟩
  show Except.ok ((sysMmap (x.tasks p).sz esp mem).1,
    x.setTask p { x.tasks p with sz := (sysMmap (x.tasks p).sz esp mem).2 }) = _
  rw [hres]

/-- The first process asks for a page more. -/
theorem First.mmap {k₀ : Kmem} (h : First img pool hvalid k₀ x) :
    (system img k₀).step x (.mmap Ptable.initproc 0 fun _ => 4096, 4096)
      (x.setTask Ptable.initproc { x.tasks Ptable.initproc with sz := 8192 }) := by
  refine mmap_step img k₀ h.initproc.1 ?_
  rw [h.initproc.2]
  decide

end Invariants

end OsCodes.Paging.Lazy
