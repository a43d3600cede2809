/-
  Page faults from user mode in xv6-public.

  `trap` maps a page for every fault that does not start above the size, and exits for the others.
  Without memory for it `allocate_on_pgflt` prints and returns, and where the page is there already,
  such as the one below the user stack, `mappages` panics.  So what happens is decided by the size, the
  entry and the number of free pages.

  `Served` is the condition on the state before the fault, and `Progress` what a fault should come
  to: a new page of zeros at its address, or the end of the process.  The two can differ in two
  ways, which the lemmas on `allocate_on_pgflt` separate: without memory nothing is mapped and the
  instruction faults again (`fault_repeats`), and where the page is present, because it is not for
  user mode, `mappages` panics (`allocate_remap`).
-/
import OsCodes.Xv6.LazyBelow
import OsCodes.Xv6.LazyPerms

namespace OsCodes.Paging.Lazy

open Xv6 (Image Kmem PgDir Perm Pte kernbase pgsize userPte pdx)
open Ptable (Slot)

/-! ## `trap` -/

/-- `trap` for `T_PGFLT` at `addr` from user mode, in process `p`; `killed` is
    `myproc()->killed`. -/
def trap (img : Image) (p : Slot) (addr : Nat) (killed : Bool) (x : Kernel) :
    Except String (Int × Kernel) := do
  let d ← x.mem.dir p
  match pgfltPage (x.tasks p).sz addr with
  | none => exit p x
  | some v =>
    let (d, k) ← Eager.allocateOnPgflt img d v x.mem.kmem
    let x := { x with mem := x.mem.setDir p (some d) k }
    if killed then exit p x else .ok (0, x)

/-- The pages that `allocate_on_pgflt` takes: one to map, and one for a page table that is
    missing. -/
def pgfltNeed (d : PgDir) (v : Nat) : Nat := if (d.table (pdx v)).isSome then 1 else 2

/-- Process `p` has a new page at `v`, of zeros and writable, from the free list; nothing else has
    changed that is mapped or in memory. -/
def NewPage (x : Kernel) (p : Slot) (v : Nat) (x' : Kernel) : Prop :=
  ∃ d page d' k', x.mem.dirs p = some d ∧ d.entry v = none ∧ page ∈ x.mem.kmem.freelist ∧
    x' = { x with mem := x.mem.setDir p (some d') k' } ∧
    d'.entry = Function.update d.entry v (some (lazyPte page)) ∧
    k'.mem = Function.update x.mem.kmem.mem page fun _ => 0

/-- A fault has got somewhere: the process is gone, or has a new page at `v`. -/
def Progress (x : Kernel) (p : Slot) (v : Nat) : Except String (Int × Kernel) → Prop
  | .error _ => False
  | .ok (_, x') => (x'.tasks p).state = .zombie ∨ NewPage x p v x'

/-- When a fault at `addr` gets somewhere.  Above the size, and for a killed process, `exit` is next,
    which `initproc` must not call; otherwise there must be no page yet, and memory for one. -/
def Served (x : Kernel) (p : Slot) (d : PgDir) (addr : Nat) (killed : Bool) : Prop :=
  if (x.tasks p).sz < addr / pgsize * pgsize then p ≠ Ptable.initproc
  else if killed then
    p ≠ Ptable.initproc ∧ (d.entry (addr / pgsize) = none ∨ x.mem.kmem.freelist = [])
  else d.entry (addr / pgsize) = none ∧
    pgfltNeed d (addr / pgsize) ≤ x.mem.kmem.freelist.length

section Fault

variable {img : Image} {k₀ k k₁ : Kmem} {x x' : Kernel} {p : Slot} {d : PgDir} {v : Nat}

/-- An access that faults is `trap`, for a process that is not killed. -/
theorem access_fault {addr : Nat} {write : Bool} {e : Xv6.Fault} (hd : x.mem.dirs p = some d)
    (hfault : userPte d (addr / pgsize) write = .error e) :
    access img p addr write x = trap img p addr false x := by
  simp only [access, trap, Counts.dir_eq hd, bind, Except.bind, hfault]
  rfl

/-- An access that does not fault changes nothing. -/
theorem access_present {addr : Nat} {write : Bool} {e : Pte} (hd : x.mem.dirs p = some d)
    (hpte : userPte d (addr / pgsize) write = .ok e) : access img p addr write x = .ok (0, x) := by
  simp only [access, Counts.dir_eq hd, bind, Except.bind, hpte]

/-! ## `allocate_on_pgflt` -/

/-- Mapping a page where the page table is missing. -/
theorem mappages_missing {A : Allocator} {pa pgtab : Nat} {perm : Perm}
    (ht : d.table (pdx v) = none) (hk : A.kalloc k = .ok (some pgtab, k₁)) :
    mappages A d v 1 pa perm k =
      .ok (true, (d.setPde v pgtab).setPte v { toPerm := perm, page := pa, p := true }, k₁) := by
  have hzero : ((d.setPde v pgtab).pte v).p = false := by
    show (if pdx v = pdx v then Pte.zero else d.pte v).p = false
    rw [if_pos rfl]
    rfl
  rw [mappages, walkpgdirAlloc, ht]
  simp only [hk, bind, Except.bind, Bool.not_true, Bool.false_eq_true, if_false, hzero]
  rfl

/-- There is no page for the page table. -/
theorem mappages_refused {A : Allocator} {pa : Nat} {perm : Perm} (ht : d.table (pdx v) = none)
    (hk : A.kalloc k = .ok (none, k₁)) : mappages A d v 1 pa perm k = .ok (false, d, k₁) := by
  rw [mappages, walkpgdirAlloc, ht]
  simp only [hk, bind, Except.bind]
  rfl

/-- **A page that is present** panics the kernel, if memory lasts until there. -/
theorem allocate_remap (he : d.entry v ≠ none) (hfree : k.freelist ≠ []) :
    Eager.allocateOnPgflt img d v k = .error "remap" := by
  obtain ⟨e, he⟩ := Option.ne_none_iff_exists'.mp he
  obtain ⟨hwalk, hp⟩ := Xv6.entry_eq_some.mp he
  obtain ⟨ht, hpte⟩ := Xv6.walkpgdir_eq_some.mp hwalk
  obtain ⟨page, rest, hfree⟩ := List.exists_cons_of_ne_nil hfree
  rw [Eager.allocateOnPgflt, Plain.kalloc, hfree]
  show (mappages plain d v 1 page _ _ >>= _) = _
  rw [mappages_found ht, hpte, hp]
  rfl

/-- **An absent page** is mapped, with memory for it. -/
theorem allocate_mapped (img : Image) (hnone : d.entry v = none)
    (hfree : pgfltNeed d v ≤ k.freelist.length) :
    ∃ page d' k', Eager.allocateOnPgflt img d v k = .ok (d', k') ∧ page ∈ k.freelist ∧
      d'.entry = Function.update d.entry v (some (lazyPte page)) ∧
      k'.mem = Function.update k.mem page fun _ => 0 := by
  rw [pgfltNeed] at hfree
  split at hfree
  case isTrue ht =>
    obtain ⟨page, rest, hcons⟩ := List.exists_cons_of_length_pos hfree
    refine ⟨page, _, _, allocate_absent ht hnone hcons, ?_, Xv6.entry_setPte ht _, rfl⟩
    rw [hcons]
    exact List.mem_cons_self
  case isFalse ht =>
    have ht : d.table (pdx v) = none := by simpa using ht
    obtain ⟨page, more, hcons⟩ := List.exists_cons_of_length_pos (Nat.lt_of_lt_of_le Nat.one_pos
      (Nat.le_of_succ_le hfree))
    rw [hcons] at hfree
    obtain ⟨pgtab, rest, rfl⟩ := List.exists_cons_of_length_pos (Nat.le_of_succ_le_succ hfree)
    have htable : ((d.setPde v pgtab).table (pdx v)).isSome := by
      show (Function.update d.table (pdx v) (some pgtab) (pdx v)).isSome
      rw [Function.update_self]
      rfl
    have hset : ((d.setPde v pgtab).setPte v (lazyPte page)).entry =
        Function.update d.entry v (some (lazyPte page)) := by
      rw [Xv6.entry_setPte htable, Xv6.entry_setPde ht]
      rfl
    refine ⟨page, (d.setPde v pgtab).setPte v (lazyPte page), { k with
      freelist := rest, mem := Function.update k.mem page fun _ => 0 }, ?_, ?_, hset, rfl⟩
    · rw [Eager.allocateOnPgflt, Plain.kalloc, hcons]
      show (mappages plain d v 1 page ⟨true, true, false⟩ _ >>= _) = _
      rw [mappages_missing ht rfl]
      rfl
    · rw [hcons]
      exact List.mem_cons_self

/-- **Without memory** nothing is mapped. -/
theorem allocate_refused (hvalid : ∀ p ∈ k.freelist, img.endPage ≤ p ∧ p < Xv6.frames)
    (hfew : k.freelist = [] ∨ d.entry v = none ∧ k.freelist.length < pgfltNeed d v) :
    ∃ k', Eager.allocateOnPgflt img d v k = .ok (d, k') := by
  cases hfree : k.freelist with
  | nil =>
    refine ⟨k, ?_⟩
    rw [Eager.allocateOnPgflt, Plain.kalloc, hfree]
    rfl
  | cons page rest =>
    rw [hfree] at hfew hvalid
    rcases hfew with hno | ⟨hnone, hlt⟩
    · cases hno
    · rw [pgfltNeed] at hlt
      split at hlt
      case isTrue =>
        have hlt : rest.length + 1 < 1 := hlt
        omega
      case isFalse ht =>
        have hlt : rest.length + 1 < 2 := hlt
        have ht : d.table (pdx v) = none := by simpa using ht
        obtain rfl : rest = [] := List.length_eq_zero_iff.mp (by omega)
        obtain ⟨hge, hlt⟩ := hvalid page List.mem_cons_self
        rw [Eager.allocateOnPgflt, Plain.kalloc, hfree]
        show ∃ k', (mappages plain d v 1 page ⟨true, true, false⟩ _ >>= _) = _
        rw [mappages_refused ht rfl]
        show ∃ k', (Plain.kfree img page _ >>= _) = _
        rw [Plain.kfree, if_neg (by omega)]
        exact ⟨_, rfl⟩

/-! ## Faults -/

/-- Pages on the free list may be freed. -/
def FreeValid (img : Image) (k : Kmem) : Prop := ∀ p ∈ k.freelist, img.endPage ≤ p ∧ p < Xv6.frames

theorem freeValid_stable (img : Image) : Stable plain img (FreeValid img) := by
  refine ⟨fun {k} h => ?_, fun {k p} h => ?_, fun _ h => h⟩
  · show Allows _ (Plain.kalloc k) _
    rw [Plain.kalloc]
    split
    case h_1 => exact .ok h
    case h_2 r next hfree =>
      refine .ok fun p hp => h p ?_
      rw [hfree]
      exact List.mem_cons_of_mem r hp
  · show Allows _ (Plain.kfree img p k) _
    rw [Plain.kfree]
    split
    case isTrue => exact .stop trivial
    case isFalse hp =>
      refine .ok fun q hq => ?_
      rcases List.mem_cons.mp hq with rfl | hq
      · omega
      · exact h q hq

theorem boot_freeValid (hboot : Booted img k₀) : FreeValid img k₀ := fun p hp =>
  Counts.boot_valid hboot p (List.mem_toFinset.mpr hp)

/-- In every state of a run, what is on the free list may be freed. -/
theorem reach_freeValid (hboot : Booted img k₀) (hr : (system img k₀).Reach x) :
    FreeValid img x.mem.kmem := by
  have hgiven : Given img fun _ _ => True :=
    ⟨fun _ _ _ _ => trivial, fun _ => trivial, fun _ _ _ => trivial⟩
  exact (reach_upheld (freeValid_stable img) hgiven (boot_freeValid hboot) hr).mem

/-- `exit` gets somewhere unless `initproc` calls it. -/
theorem exit_progress (x' : Kernel) : Progress x p v (exit p x') ↔ p ≠ Ptable.initproc := by
  rw [exit]
  split
  case isTrue hinit => exact iff_of_false id fun hne => hne hinit
  case isFalse hne =>
    refine iff_of_true (.inl ?_) hne
    rw [setTask_task]

/-- `trap` for a page that does not start above the size. -/
theorem trap_below {addr : Nat} {killed : Bool} (hd : x.mem.dirs p = some d)
    (hle : ¬ (x.tasks p).sz < addr / pgsize * pgsize) : trap img p addr killed x =
      Eager.allocateOnPgflt img d (addr / pgsize) x.mem.kmem >>= fun r =>
        if killed then exit p { x with mem := x.mem.setDir p (some r.1) r.2 }
        else .ok (0, { x with mem := x.mem.setDir p (some r.1) r.2 }) := by
  have hpage : pgfltPage (x.tasks p).sz addr = some (addr / pgsize) := by
    rw [pgfltPage]
    show (if (x.tasks p).sz < addr / pgsize * pgsize then none else _) = _
    rw [if_neg hle]
    exact congrArg some (Nat.mul_div_cancel _ (by decide))
  rw [trap, Counts.dir_eq hd]
  show (match pgfltPage (x.tasks p).sz addr with | none => _ | some v => _) = _
  rw [hpage]

/-- `trap` for a page that starts above the size. -/
theorem trap_above {addr : Nat} {killed : Bool} (hd : x.mem.dirs p = some d)
    (hlt : (x.tasks p).sz < addr / pgsize * pgsize) : trap img p addr killed x = exit p x := by
  have hpage : pgfltPage (x.tasks p).sz addr = none := if_pos hlt
  rw [trap, Counts.dir_eq hd]
  show (match pgfltPage (x.tasks p).sz addr with | none => _ | some v => _) = _
  rw [hpage]

/-- A process whose directory is as before, and that has not exited, has got nowhere. -/
theorem no_progress (hrun : (x.tasks p).state = .runnable) (hd : x.mem.dirs p = some d) (r : Int) :
    ¬ Progress x p v (.ok (r, { x with mem := x.mem.setDir p (some d) k })) := by
  rintro (hzombie | ⟨d₀, page, d', k', hd₀, hnone, -, hx, hentry, -⟩)
  · have hzombie : (x.tasks p).state = .zombie := hzombie
    rw [hrun] at hzombie
    cases hzombie
  · obtain rfl := Option.some.inj (hd.symm.trans hd₀)
    have hdirs := congrArg (fun y : Kernel => y.mem.dirs p) hx
    have hdirs : Function.update x.mem.dirs p (some d) p =
        Function.update x.mem.dirs p (some d') p := hdirs
    rw [Function.update_self, Function.update_self] at hdirs
    rw [← Option.some.inj hdirs] at hentry
    have hself := congrFun hentry v
    rw [Function.update_self, hnone] at hself
    cases hself

/-- **When a page fault gets somewhere.**  In every state of a run of xv6-public, a page fault of a
    running process ends with one new page of zeros at its address, or with the process gone, exactly
    when `Served` says so; otherwise the kernel panics, or `trap` returns with the page still
    absent. -/
theorem fault_progress (hboot : Booted img k₀) (hr : (system img k₀).Reach x)
    (hrun : (x.tasks p).state = .runnable) (hd : x.mem.dirs p = some d) (addr : Nat)
    (killed : Bool) :
    Progress x p (addr / pgsize) (trap img p addr killed x) ↔ Served x p d addr killed := by
  have hvalid := reach_freeValid hboot hr
  rw [Served]
  split
  case isTrue hlt =>
    rw [trap_above hd hlt]
    exact exit_progress x
  case isFalse hle =>
    rw [trap_below hd hle]
    generalize addr / pgsize = v
    by_cases hnone : d.entry v = none
    · by_cases hfree : pgfltNeed d v ≤ x.mem.kmem.freelist.length
      · obtain ⟨page, d', k', hrun', hpage, hentry, hmem⟩ := allocate_mapped img hnone hfree
        rw [hrun']
        cases killed with
        | true => exact (exit_progress _).trans (and_iff_left (.inl hnone)).symm
        | false =>
          exact iff_of_true (.inr ⟨d, page, d', k', hd, hnone, hpage, rfl, hentry, hmem⟩)
            ⟨hnone, hfree⟩
      · obtain ⟨k', hrun'⟩ := allocate_refused hvalid (.inr ⟨hnone, Nat.lt_of_not_le hfree⟩)
        rw [hrun']
        cases killed with
        | true => exact (exit_progress _).trans (and_iff_left (.inl hnone)).symm
        | false => exact iff_of_false (no_progress hrun hd 0) fun h => hfree h.2
    · by_cases hempty : x.mem.kmem.freelist = []
      · obtain ⟨k', hrun'⟩ := allocate_refused (v := v) hvalid (.inl hempty)
        rw [hrun']
        cases killed with
        | true => exact (exit_progress _).trans (and_iff_left (.inr hempty)).symm
        | false => exact iff_of_false (no_progress hrun hd 0) fun h => hnone h.1
      · rw [allocate_remap hnone hempty]
        cases killed with
        | true => exact iff_of_false id fun h => h.2.elim hnone hempty
        | false => exact iff_of_false id fun h => hnone h.1

/-- **The kernel takes all pages** for itself. -/
theorem exhaust : ∀ {n : Nat} {x : Kernel}, (system img k₀).Reach x →
    x.mem.kmem.freelist.length = n → ∃ x', (system img k₀).Reach x' ∧
      x'.mem.kmem.freelist = [] ∧ x'.mem.dirs = x.mem.dirs ∧ x'.tasks = x.tasks := by
  intro n
  induction n with
  | zero => exact fun {x} hr hlen => ⟨x, hr, List.length_eq_zero_iff.mp hlen, rfl, rfl⟩
  | succ n ih =>
    intro x hr hlen
    obtain ⟨page, rest, hfree⟩ := List.exists_cons_of_length_pos (by rw [hlen]; omega)
    rw [hfree] at hlen
    have hstep : (system img k₀).step x (.kalloc, 0) { x with mem :=
        { x.mem with kmem := { x.mem.kmem with freelist := rest }
                     priv := insert page x.mem.priv } } := by
      refine ⟨trivial, ?_⟩
      show (Plain.kalloc x.mem.kmem >>= _) = _
      rw [Plain.kalloc, hfree]
      rfl
    obtain ⟨x', hr', hempty, hdirs, htasks⟩ := ih (.step hr hstep) (Nat.succ.inj hlen)
    exact ⟨x', hr', hempty, hdirs, htasks⟩

end Fault

/-- The first process asks for a page and touches it. -/
theorem fault_progress_touched : ∃ (k₀ : Kmem) (x : Kernel), (system bootImage k₀).Reach x ∧
    (x.tasks Ptable.initproc).sz = 8192 ∧
    Progress x Ptable.initproc 1 (trap bootImage Ptable.initproc 4096 false x) := by
  obtain ⟨k₀, hboot, x₀, h0, hfirst, hlen⟩ := first_exists
  obtain ⟨d, page, next, rest, hd, ht, hnone, hfree⟩ := hfirst.second (by omega)
  have hr := Lts.Reach.step (.start h0) hfirst.mmap
  refine ⟨k₀, _, hr, by rw [setTask_task],
    (fault_progress hboot hr (by rw [setTask_task]; exact hfirst.initproc.1) hd 4096 false).mpr ?_⟩
  have hle : ¬ 8192 < 4096 / pgsize * pgsize := by decide
  rw [Served, setTask_task, if_neg hle]
  refine ⟨hnone, ?_⟩
  show (if (d.table (pdx 1)).isSome then 1 else 2) ≤ x₀.mem.kmem.freelist.length
  rw [if_pos ht, hfree]
  exact Nat.le_add_left 1 _

/-- Without a free page the first process faults at the page it asked for, and `trap` returns with
    everything as it was. -/
theorem fault_repeats : ∃ (k₀ : Kmem) (x : Kernel) (d : PgDir), Booted bootImage k₀ ∧
    (system bootImage k₀).Reach x ∧ (x.tasks Ptable.initproc).state = .runnable ∧
    (x.tasks Ptable.initproc).sz = 8192 ∧ x.mem.dirs Ptable.initproc = some d ∧
    d.entry 1 = none ∧ trap bootImage Ptable.initproc 4096 false x = .ok (0, x) := by
  obtain ⟨k₀, hboot, x₀, h0, hfirst, hlen⟩ := first_exists
  obtain ⟨d, page, next, rest, hd, ht, hnone, hfree⟩ := hfirst.second (by omega)
  obtain ⟨x, hr, hempty, hdirs, htasks⟩ := exhaust (.step (.start h0) hfirst.mmap) rfl
  have htask : (x.tasks Ptable.initproc).state = .runnable ∧
      (x.tasks Ptable.initproc).sz = 8192 := by
    rw [htasks, setTask_task]
    exact ⟨hfirst.initproc.1, rfl⟩
  have hd' : x.mem.dirs Ptable.initproc = some d := by
    rw [hdirs]
    exact hd
  refine ⟨k₀, x, d, hboot, hr, htask.1, htask.2, hd', hnone, ?_⟩
  have hsame : x.mem.setDir Ptable.initproc (some d) x.mem.kmem = x.mem := by
    rw [Counts.State.setDir, ← hd', Function.update_eq_self]
  rw [trap_below hd' (by rw [htask.2]; decide), Eager.allocateOnPgflt, Plain.kalloc, hempty]
  show Except.ok (0, ({ x with mem := x.mem.setDir Ptable.initproc (some d) x.mem.kmem } :
    Kernel)) = _
  rw [hsame]

end OsCodes.Paging.Lazy
