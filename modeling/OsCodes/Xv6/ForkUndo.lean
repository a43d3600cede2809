/-
  A copy-on-write fork that runs out of memory is undone.

  `fork` asks `kalloc` for a kernel stack, a page directory, the page tables of the kernel part and
  those of the user pages, `forkPages` in all; with fewer free pages it fails at one of them.  The
  references are the same before and after, and the books are determined by them, so the free pages
  and all counts are as they were.

  What is not undone are the write permissions of the parent: pages that were shared before memory
  ran out stay copy-on-write (`Demoted`), and the next store to one of them faults once.  That the
  number of pages is exact goes by `Cost`, for the copy as well as for the kernel part of the
  child.  The witness fails at the last possible place, the page table for the child's only page.
-/
import OsCodes.Xv6.Fork

namespace OsCodes.Paging.ForkUndo

open Refcount Xv6 Cow
open Ptable (Slot)
open Counts (system)

/-! ## Undoing -/

/-- The pages that `fork` asks for: a kernel stack, a page directory, 64 page tables of the kernel
    part, and the page tables of the user pages. -/
def forkPages (sz : Nat) : Nat := 66 + (pages sz + 1023) / 1024

/-- An entry is as before, or copy-on-write where the page was writable. -/
def Demoted (e e' : Pte) : Prop := e' = e ∨ (e.w = true ∧ e' = e.share)

/-- Nothing but write permissions of the parent is lost between `x` and `x'`. -/
structure Undone (x x' : Kernel) (curproc : Slot) (d : PgDir) : Prop where
  free_eq : NumFreePages x'.mem.kmem = NumFreePages x.mem.kmem
  count_eq : ∀ p, x'.mem.kmem.count p = x.mem.kmem.count p
  child : ∀ np, unusedSlot x = some np → (x'.tasks np).state = .unused
  others : ∀ p, unusedSlot x ≠ some p → x'.tasks p = x.tasks p
  dirs : ∀ p, p ≠ curproc → x'.mem.dirs p = x.mem.dirs p
  parent : ∃ d', x'.mem.dirs curproc = some d' ∧
    ∀ v, (d.entry v = none → d'.entry v = none) ∧ ∀ e, d.entry v = some e →
      ∃ e', d'.entry v = some e' ∧ Demoted e e' ∧ e'.page = e.page ∧
        (v < userPages → x'.mem.kmem.mem e'.page = x.mem.kmem.mem e.page)

/-! ## Failing -/

/-- **Sharing only demotes** the entries of a proper directory. -/
theorem shared_demoted {d d' : PgDir} {j : Nat} (hs : SharedTo d j d') (hj : j ≤ userPages)
    (hd : Counts.Proper d) (v : Nat) : (d.entry v = none → d'.entry v = none) ∧
      ∀ e, d.entry v = some e → ∃ e', d'.entry v = some e' ∧ Demoted e e' ∧ e'.page = e.page := by
  rw [hs.entry_eq]
  split
  case isFalse => exact ⟨id, fun e he => ⟨e, he, .inl rfl, rfl⟩⟩
  case isTrue hlt =>
    refine ⟨fun hnone => by rw [hnone]; rfl, fun e he => ?_⟩
    refine ⟨e.share, by rw [he]; rfl, ?_, rfl⟩
    cases hw : e.w with
    | true => exact .inr ⟨hw, rfl⟩
    | false =>
      have hcow : e.cow = true := (hd.usable v e (by omega) he).resolve_left (by
        rw [hw]
        exact Bool.false_ne_true)
      refine .inl ?_
      rw [Pte.share, ← hw, ← hcow]

section Fork

variable {img : Image} {k₀ : Kmem} {x : Kernel} {curproc : Slot} {d : PgDir}

/-- The free pages are counted right. -/
theorem numFreePages_eq (hboot : Booted img k₀) {s : Counts.State Slot} {T : Refs Nat}
    (h : (Counted.books img k₀.freelist.toFinset (Counts.boot_valid hboot)).Acct s.kmem T) :
    NumFreePages s.kmem = s.kmem.freelist.length := by
  rw [NumFreePages, numFreeLoop_eq, Nat.zero_add]
  exact fun p hp => (Counts.boot_valid hboot p ((h.ledger.mem_free p).mp hp).1).2

/-- **The references determine** the counts and the number of free pages. -/
theorem acct_same (hboot : Booted img k₀) {s s' : Counts.State Slot} {T : Refs Nat}
    (h : (Counted.books img k₀.freelist.toFinset (Counts.boot_valid hboot)).Acct s.kmem T)
    (h' : (Counted.books img k₀.freelist.toFinset (Counts.boot_valid hboot)).Acct s'.kmem T) :
    NumFreePages s'.kmem = NumFreePages s.kmem ∧ ∀ p, s'.kmem.count p = s.kmem.count p := by
  constructor
  · rw [numFreePages_eq hboot h, numFreePages_eq hboot h']
    have hsum := h.ledger.length_add_card
    have hsum' := h'.ledger.length_add_card
    omega
  · intro p
    rw [h.count_eq p, h'.count_eq p]

/-- **Undone**: what there is to show when the references and the parent's pages are as before. -/
theorem Undone.of_acct (hboot : Booted img k₀) {x' : Kernel} {d' : PgDir} {np : Slot} {j : Nat}
    {T : Refs Nat} (hslot : unusedSlot x = some np)
    (h : (Counted.books img k₀.freelist.toFinset (Counts.boot_valid hboot)).Acct x.mem.kmem T)
    (h' : (Counted.books img k₀.freelist.toFinset (Counts.boot_valid hboot)).Acct x'.mem.kmem T)
    (hfailed : Failed x np x')
    (hdirs : x'.mem.dirs = Function.update x.mem.dirs curproc (some d'))
    (hs : SharedTo d j d') (hj : j ≤ userPages) (hd : Counts.Proper d)
    (hkept : ∀ v e, v < userPages → d.entry v = some e →
      x'.mem.kmem.mem e.page = x.mem.kmem.mem e.page) : Undone x x' curproc d := by
  obtain ⟨hfree, hcount⟩ := acct_same hboot h h'
  refine ⟨hfree, hcount, fun np' hnp => ?_, fun p hp => ?_, fun p hp => ?_, d', ?_, fun v => ?_⟩
  · rw [hslot] at hnp
    rw [← Option.some.inj hnp]
    exact hfailed.unused
  · refine hfailed.others p fun heq => hp ?_
    rw [hslot, heq]
  · rw [hdirs, Function.update_of_ne hp]
  · rw [hdirs, Function.update_self]
  · obtain ⟨hnone, hsome⟩ := shared_demoted hs hj hd v
    refine ⟨hnone, fun e he => ?_⟩
    obtain ⟨e', he', hdem, hpage⟩ := hsome e he
    refine ⟨e', he', hdem, hpage, fun hv => ?_⟩
    rw [hpage]
    exact hkept v e hv he

/-- **A fork that runs out of memory is undone.**  The state is one after `kinit2`, with every page
    of the parent below its size mapped.  With fewer free pages than `fork` asks for, `kalloc`
    returns 0 at one of them, and `fork` returns -1 with everything as before but for the write
    permissions of the parent; with that many, and a free slot, no call of `kalloc` fails and the
    child is there. -/
theorem fork_undone (hboot : Booted img k₀) (hr : (system img k₀).Reach x.mem)
    (hd : x.mem.dirs curproc = some d)
    (hmapped : ∀ v, v < pages (x.tasks curproc).sz → d.entry v ≠ none) :
    ∃ r x', fork img curproc x = .ok (r, x') ∧
      (NumFreePages x.mem.kmem < forkPages (x.tasks curproc).sz → r = -1 ∧
        Undone x x' curproc d) ∧
      (forkPages (x.tasks curproc).sz ≤ NumFreePages x.mem.kmem → ∀ np, unusedSlot x = some np →
        r = x.nextpid ∧ (x'.tasks np).state = .runnable) := by
  have hbal := Counts.reach_balanced hboot hr
  have hlive := hbal.live hd
  have hproper := hbal.proper curproc d hd
  have hfree := numFreePages_eq hboot hlive
  have hgap := exists_absent hproper.single hlive
  have hsize : pages (x.tasks curproc).sz < userPages := lt_of_gap hgap hmapped
  have hsame : Function.update x.mem.dirs curproc (some d) = x.mem.dirs := by
    rw [← hd, Function.update_eq_self]
  cases hslot : unusedSlot x with
  | none =>
    refine ⟨-1, x, fork_no_slot hslot, fun _ => ⟨rfl, rfl, fun _ => rfl,
      fun np hnp => ?_, fun _ _ => rfl, fun _ _ => rfl, d, hd, fun v => ⟨id, fun e he =>
        ⟨e, he, .inl rfl, rfl, fun _ => rfl⟩⟩⟩, fun _ np hnp => by cases hnp⟩
    rw [hslot] at hnp
    cases hnp
  | some np =>
    obtain ⟨⟨kstack, k₁⟩, hkalloc, htaken, hlen, hzero⟩ :=
      (((Counted.books img _ (Counts.boot_valid hboot)).kalloc_spec hlive).and
        kalloc_cost).exists_ok
    have hkalloc : counted.kalloc x.mem.kmem = .ok (kstack, k₁) := hkalloc
    cases kstack with
    | none =>
      -- no kernel stack
      obtain rfl : k₁ = x.mem.kmem := htaken
      have hzero : x.mem.kmem.freelist.length = 0 := hzero rfl
      obtain ⟨x', hrun, hmem, hfailed⟩ : ∃ x', fork img curproc x = .ok (-1, x') ∧
        x'.mem = { x.mem with kmem := x.mem.kmem } ∧ Failed x np x' := fork_no_stack hslot hkalloc
      refine ⟨-1, x', hrun, fun _ => ⟨rfl, ?_⟩, fun hle => ?_⟩
      · refine .of_acct hboot hslot hlive ?_ hfailed ?_ (.zero d) (Nat.zero_le _) hproper
          fun v e _ _ => by rw [hmem]
        · rw [hmem]
          exact hlive
        · rw [hmem, hsame]
      · rw [forkPages, hfree] at hle
        omega
    | some kstack =>
      obtain ⟨hfresh, howned, -, hmem⟩ := htaken
      have hlen : k₁.freelist.length + 1 = x.mem.kmem.freelist.length := hlen
      have hmem : k₁.mem = x.mem.kmem.mem := hmem
      have hpriv : kstack ∉ x.mem.priv := by
        refine Counts.notMem_priv ?_
        rw [Counts.refs_eq x.mem curproc, hd]
        exact hfresh
      rw [add_right_comm] at howned
      obtain ⟨⟨child, d', k₂⟩, hcopy, hfork⟩ := (Cow.copyuvm_spec hgap
        (fun u hu hnone => absurd hnone (hmapped u hu)) howned).exists_ok
      have hfork : Cow.Forked (Counted.books img _ (Counts.boot_valid hboot))
        (x.mem.others curproc + .owner kstack) d (x.tasks curproc).sz k₁ child d' k₂ := hfork
      have hfits := hfork.fits (Nat.le_of_lt hsize)
      cases child with
      | none =>
        -- no page directory, or no page table
        obtain ⟨hacct, j, hj, hs⟩ := hfork.failed rfl
        have hheld : (Counted.books img _ (Counts.boot_valid hboot)).Acct k₂
            (x.mem.others curproc + d.uses + .owner kstack) := by
          rw [add_right_comm]
          exact hacct
        obtain ⟨k₃, hkfree, hacct₃, hkept₃⟩ := (kfree_owner hheld).exists_ok
        have hkfree : counted.kfree img kstack k₂ = .ok k₃ := hkfree
        obtain ⟨x', hrun, hx', hfailed⟩ := fork_no_copy hslot hkalloc hpriv hd hcopy hkfree
        refine ⟨-1, x', hrun, fun _ => ⟨rfl, ?_⟩, fun hle => ?_⟩
        · refine .of_acct hboot hslot hlive ?_ hfailed ?_ hs (by omega) hproper
            fun v e hv he => ?_
          · rw [hx']
            exact hacct₃
          · rw [hx']
            rfl
          · have hpos := uses_pos hv he
            rw [hx']
            show k₃.mem e.page = _
            rw [hkept₃ _ (by rw [Refs.total_add]; omega),
              hfork.kept _ (by rw [Refs.total_add]; omega), hmem]
        · rw [forkPages] at hle
          exact absurd (hfits.mpr (by omega)) Bool.false_ne_true
      | some d₂ =>
        obtain ⟨x', hrun, -, hchild, -⟩ := fork_child hslot hkalloc hd hcopy
        refine ⟨_, x', hrun, fun hlt => ?_, fun _ np' hnp => ⟨rfl, ?_⟩⟩
        · have hyes := hfits.mp rfl
          rw [forkPages] at hlt
          omega
        · obtain rfl := Option.some.inj hnp
          exact hchild.2

end Fork

/-- A process of one page forks when 66 pages are free: they are used up for the kernel stack, the
    page directory and the page tables of the kernel part, and there is none for the page table of
    its page. -/
theorem fork_undone_table : ∃ (x : Kernel) (d : PgDir), NumFreePages x.mem.kmem = 66 ∧
    (x.tasks 0).sz = 4096 ∧ d.entry 0 ≠ none ∧ unusedSlot x = some 1 ∧
    ∃ x', fork bootImage 0 x = .ok (-1, x') ∧ Undone x x' 0 d ∧ (x'.tasks 1).state = .unused := by
  obtain ⟨k₀, s, d, hboot, hr, hd, ⟨e, he, -⟩, -, -, hlen⟩ :=
    Counts.one_page (0 : Slot) (m := 66) (by decide)
  have hentry : d.entry 0 ≠ none := Option.ne_none_iff_exists'.mpr ⟨e, he⟩
  let task (p : Slot) : Task := ⟨if p = 0 then .running else .unused, 1, none, 4096, none⟩
  have hone : pages 4096 = 1 := by decide
  have hslot : unusedSlot ⟨s, task, 2⟩ = some 1 := rfl
  have hfree : NumFreePages s.kmem = 66 :=
    (numFreePages_eq hboot ((Counts.reach_balanced hboot hr).live hd)).trans hlen
  obtain ⟨r, x', hrun, hfail, -⟩ := fork_undone (x := ⟨s, task, 2⟩) hboot hr hd fun v hv => by
    have hv : v < pages 4096 := hv
    rw [hone, Nat.lt_one_iff] at hv
    rwa [hv]
  obtain ⟨rfl, hundone⟩ := hfail (by
    show NumFreePages s.kmem < forkPages 4096
    rw [forkPages, hone]
    omega)
  exact ⟨_, d, hfree, rfl, hentry, hslot, x', hrun, hundone, hundone.child 1 hslot⟩

end OsCodes.Paging.ForkUndo
