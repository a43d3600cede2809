/-
  Page faults from user mode in xv6-public(1).

  `handle_pgflt_helper` takes every page fault for a write to a copy-on-write page and panics where it
  is none, or where there is no page for the copy; it never kills the process.  So a fault is
  survived exactly when its page is a present user page and a page is free.  That an entry for user
  mode is below `KERNBASE` is an invariant of its own, on the permissions of entries.

  The condition of `fault_survived` is on the state before the fault: the entry is present and for
  user mode, and the free list is not empty.  It is asked for also where the page has one
  reference, since the handler copies in any case.  In the other direction,
  `handlePgfltHelper_returns` says what must have been there when the handler comes back, and
  `user_access_panics` is a program that stops the machine by reading the first address of the
  kernel.
-/
import OsCodes.Xv6.Counts
import OsCodes.Xv6.Perms

namespace OsCodes.Paging.Counts

open Refcount Xv6

/-! ## Entries for user mode -/

/-- No entry above `KERNBASE` is for user mode. -/
def KernelOnly (v : Nat) (perm : Perm) : Prop := userPages ≤ v → perm.u = false

section KernelOnly

variable {ι : Type} [DecidableEq ι] {img : Image} {P : Nat → Perm → Prop} {s : State ι} {i : ι}

theorem kmap_kernelOnly (img : Image) : ∀ e ∈ kmap img, ∀ u, e.virt ≤ u → KernelOnly u e.perm :=
  fun e he _ _ _ => kmap_kernel img e he

/-- All live directories have permissions with `P`. -/
def AllMeet (P : Nat → Perm → Prop) (s : State ι) : Prop := ∀ i d, s.dirs i = some d → Meets P d

theorem AllMeet.setDir {x : Option PgDir} {k : Kmem} (h : AllMeet P s)
    (hx : ∀ d, x = some d → Meets P d) : AllMeet P (s.setDir i x k) := by
  intro j d hj
  have hj : Function.update s.dirs i x j = some d := hj
  by_cases hji : j = i
  · rw [hji, Function.update_self] at hj
    exact hx d hj
  · rw [Function.update_of_ne hji] at hj
    exact h j d hj

/-- A call on one directory that stays. -/
theorem AllMeet.setSome {d : PgDir} {k : Kmem} (h : AllMeet P s) (hd : Meets P d) :
    AllMeet P (s.setDir i (some d) k) := by
  refine h.setDir fun d' hd' => ?_
  rw [← Option.some.inj hd']
  exact hd

omit [DecidableEq ι] in
/-- A call that looks up a directory. -/
theorem AllMeet.with_dir {α : Type} {f : PgDir → Except String α} {Q : α → Prop}
    (h : AllMeet P s) (hf : ∀ d, Meets P d → Allows (fun _ => True) (f d) Q) :
    Allows (fun _ => True) (s.dir i >>= f) Q := by
  cases hd : s.dirs i with
  | none =>
    rw [State.dir, hd]
    exact .stop trivial
  | some d =>
    rw [dir_eq hd]
    exact hf d (h i d hd)

/-- **Every call** keeps user mode out of the kernel part. -/
theorem AllMeet.exec {call : Call ι} (h : AllMeet KernelOnly s) :
    Allows (fun _ => True) (exec img s call) (AllMeet KernelOnly) := by
  cases call with
  | setupkvm i =>
    apply (setupkvm_meets .trivial (kmap_kernelOnly img) trivial).bind
    rintro ⟨x, k⟩ ⟨hx, -⟩
    exact .ok (h.setDir hx)
  | allocuvm i oldsz newsz =>
    refine h.with_dir fun d hd => (allocuvm_meets .trivial hd trivial fun u hu hge => ?_).bind
      fun _ hd' => .ok (h.setSome hd'.1)
    omega
  | deallocuvm i oldsz newsz =>
    exact h.with_dir fun d hd => (deallocuvm_meets .trivial hd trivial).bind
      fun _ hd' => .ok (h.setSome hd'.1)
  | freevm i =>
    exact h.with_dir fun d _ => .skip fun _ => .ok (h.setDir fun _ hno => by cases hno)
  | copyuvm i c sz =>
    refine h.with_dir fun d hd => (Cow.copyuvm_meets (kmap_kernelOnly img)
      (fun _ _ hperm => hperm) hd).bind ?_
    rintro ⟨child, d', k⟩ ⟨hparent, hchild⟩
    exact .ok ((h.setSome hparent).setDir hchild)
  | handlePgfltHelper i v =>
    exact h.with_dir fun d hd => (Cow.handlePgfltHelper_meets hd fun _ hperm => hperm).bind
      fun _ hd' => .ok (h.setSome hd')
  | clearpteu i v =>
    exact h.with_dir fun d hd => (clearpteu_meets hd fun _ _ _ => rfl).bind
      fun _ hd' => .ok (h.setSome hd')
  | kalloc =>
    refine .skip fun ⟨r, k⟩ => ?_
    cases r with
    | none => exact .ok h
    | some p => exact .ok h
  | kfree p => exact .skip fun _ => .ok h
  | write mem => exact .ok h

/-- In every state of a run, entries for user mode are below `KERNBASE`. -/
theorem user_entry {k₀ : Kmem} {d : PgDir} {v : Nat} {e : Pte} (hr : (system img k₀).Reach s)
    (hi : s.dirs i = some d) (he : d.entry v = some e) (hu : e.u = true) : v < userPages := by
  have hmeets : AllMeet KernelOnly s := by
    refine hr.invariant ?_ ?_
    · rintro s rfl i d hi
      cases hi
    · rintro s call s' h ⟨-, hexec⟩
      exact h.exec.of_ok hexec
  by_contra hge
  have hkernel := hmeets i d hi v e he (by omega)
  rw [hkernel] at hu
  cases hu

end KernelOnly

/-! ## `trap` -/

section Trap

variable {ι : Type} [DecidableEq ι]

/-- `trap` for `T_PGFLT` in page `v` from user mode, by the process with directory `i`: `killed` is
    `myproc()->killed`, `init` whether it is `initproc`.  After `exit` it does not return. -/
def trap (img : Image) (s : State ι) (i : ι) (v : Nat) (killed init : Bool) :
    Except String (Option (State ι)) := do
  let s ← exec img s (.handlePgfltHelper i v)
  if killed then
    if init then .error "init exiting" else .ok none
  else .ok (some s)

/-- Page `v` is writable, and its memory is referred to by this entry only. -/
def State.Private [Fintype ι] (s : State ι) (i : ι) (v : Nat) : Prop :=
  ∃ d e, s.dirs i = some d ∧ d.entry v = some e ∧ e.u = true ∧ e.w = true ∧
    s.mappings e.page = 1 ∧ ¬ s.Holds e.page ∧ s.kmem.count e.page = 1

/-- The kernel has not panicked: the process has exited, or goes on with a page of its own. -/
def Survives [Fintype ι] (i : ι) (v : Nat) : Except String (Option (State ι)) → Prop
  | .error _ => False
  | .ok none => True
  | .ok (some s) => s.Private i v

/-- **When the handler returns**: the page is the user's, and there was memory for a copy. -/
theorem handlePgfltHelper_returns {img : Image} {d : PgDir} {v : Nat} {k : Kmem}
    {r : PgDir × Kmem} (h : Cow.handlePgfltHelper img d v k = .ok r) :
    (∃ e, d.entry v = some e ∧ e.u = true) ∧ k.freelist ≠ [] := by
  rw [Cow.handlePgfltHelper] at h
  split at h
  case h_1 => cases h
  case h_2 pte hwalk =>
    split at h
    case isTrue => cases h
    case isFalse hu =>
      split at h
      case isTrue => cases h
      case isFalse hp =>
        split at h
        case isTrue => cases h
        case isFalse =>
          refine ⟨⟨pte, entry_eq_some.mpr ⟨hwalk, by simpa using hp⟩, by simpa using hu⟩, ?_⟩
          intro hempty
          rw [Counted.kalloc, hempty] at h
          cases h

variable {img : Image} {k₀ : Kmem} {s s' : State ι} {i : ι} {d : PgDir} {v : Nat}

/-- Where the handler does not return, the kernel panics. -/
theorem trap_error (killed init : Bool) (hi : s.dirs i = some d)
    (hno : ¬ ((∃ e, d.entry v = some e ∧ e.u = true) ∧ s.kmem.freelist ≠ [])) :
    ∃ msg, trap img s i v killed init = .error msg := by
  cases h : Cow.handlePgfltHelper img d v s.kmem with
  | ok r => exact absurd (handlePgfltHelper_returns h) hno
  | error msg =>
    refine ⟨msg, ?_⟩
    rw [trap, exec, dir_eq hi]
    show ((Cow.handlePgfltHelper img d v s.kmem >>= _) >>= _) = _
    rw [h]
    rfl

variable [Fintype ι]

/-- **The handler returns** for a present user page when a page is free, and the page is private. -/
theorem handled {e : Pte} (hboot : Booted img k₀) (hr : (system img k₀).Reach s)
    (hi : s.dirs i = some d) (he : d.entry v = some e) (hu : e.u = true)
    (hfree : s.kmem.freelist ≠ []) :
    ∃ s', exec img s (.handlePgfltHelper i v) = .ok s' ∧ s'.Private i v := by
  have h := reach_balanced hboot hr
  have hv := user_entry hr hi he hu
  obtain ⟨d', k, mem, hexec, hr', hfresh, hentry⟩ := fault_run hboot hr hi hv he hu hfree
  have hself : d'.entry v = some { page := mem, p := true, w := true, u := true, cow := false } := by
    rw [hentry, Function.update_self]
  -- the page is mapped here once, and by nobody else
  have h' := reach_balanced hboot hr'
  have hone : d'.uses.shared mem = 1 := by
    have hpos := uses_shared_pos hv hself
    have hle := (h'.proper i d' (Function.update_self ..)).single mem
    exact Nat.le_antisymm hle hpos
  have hnobody : (s.others i).shared mem = 0 := by
    rw [Refs.total_add, Refs.total] at hfresh
    omega
  have hshared : (s.setDir i (some d') k).refs.shared mem = 1 := by
    rw [refs_setDir, Refs.add_shared, hnobody, Nat.zero_add]
    exact hone
  have hown : ¬ 0 < (s.setDir i (some d') k).refs.own mem := fun hpos => by
    have htotal := h'.acct.apart mem hpos
    rw [Refs.total, hshared] at htotal
    omega
  refine ⟨_, hexec, d', _, Function.update_self .., hself, rfl, rfl, ?_, ?_, ?_⟩
  · rw [← refs_shared]
    exact hshared
  · exact fun hholds => hown ((refs_own_pos _ _).mpr hholds)
  · rw [h'.acct.count_eq mem, Refs.total, hshared, Nat.eq_zero_of_not_pos hown]
    rfl

/-- **When a page fault is survived.**  In every state of a run after `kinit2`, a page fault from user
    mode ends with a private writable page or with the process gone if and only if its page is a
    present user page, a page is free, and it is not a killed `init` that faults. -/
theorem fault_survived (hboot : Booted img k₀) (hr : (system img k₀).Reach s)
    (hi : s.dirs i = some d) (v : Nat) (killed init : Bool) :
    Survives i v (trap img s i v killed init) ↔
      (∃ e, d.entry v = some e ∧ e.u = true) ∧ s.kmem.freelist ≠ [] ∧
        ¬ (killed = true ∧ init = true) := by
  by_cases hpage : (∃ e, d.entry v = some e ∧ e.u = true) ∧ s.kmem.freelist ≠ []
  · obtain ⟨⟨e, he, hu⟩, hfree⟩ := hpage
    obtain ⟨s', hexec, hprivate⟩ := handled hboot hr hi he hu hfree
    rw [trap, hexec]
    show Survives i v (if killed = true then _ else _) ↔ _
    rw [and_iff_right ⟨e, he, hu⟩, and_iff_right hfree]
    cases killed with
    | false => exact iff_of_true hprivate (by simp)
    | true =>
      cases init with
      | false => exact iff_of_true trivial (by simp)
      | true => exact iff_of_false id (by simp)
  · obtain ⟨msg, herr⟩ := trap_error killed init hi hpage
    rw [herr]
    exact iff_of_false id fun h => hpage ⟨h.1, h.2.1⟩

end Trap

/-- Without a free page no fault is survived. -/
theorem fault_survived_full : ∃ (k₀ : Kmem) (s : State Unit) (d : PgDir),
    (system bootImage k₀).Reach s ∧ s.dirs () = some d ∧ d.entry 0 ≠ none ∧
    ∀ v, ¬ Survives () v (trap bootImage s () v false false) := by
  obtain ⟨k₀, s, d, hboot, hr, hi, ⟨e, he, -⟩, -, -, hlen⟩ := one_page () (Nat.zero_le 55000)
  refine ⟨k₀, s, d, hr, hi, Option.ne_none_iff_exists'.mpr ⟨e, he⟩, fun v hs => ?_⟩
  have hiff := (fault_survived hboot hr hi v false false).mp hs
  exact hiff.2.1 (List.length_eq_zero_iff.mp hlen)

/-- With 1000 free pages, a process that touches the first address of the kernel stops the
    machine. -/
theorem user_access_panics : ∃ (k₀ : Kmem) (s : State Unit) (msg : String), Booted bootImage k₀ ∧
    (system bootImage k₀).Reach s ∧ s.kmem.freelist.length = 1000 ∧
    trap bootImage s () userPages false false = .error msg := by
  obtain ⟨k₀, s, d, hboot, hr, hi, -, -, -, hlen⟩ :=
    one_page () (show 1000 ≤ 55000 by decide)
  obtain ⟨msg, herr⟩ := trap_error (v := userPages) false false hi fun hno => by
    obtain ⟨⟨e, he, hu⟩, -⟩ := hno
    exact absurd (user_entry hr hi he hu) (Nat.lt_irrefl _)
  exact ⟨k₀, s, msg, hboot, hr, hlen, herr⟩

end OsCodes.Paging.Counts
