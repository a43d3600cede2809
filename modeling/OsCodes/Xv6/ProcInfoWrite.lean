/-
  What `getProcInfo` writes.

  `sys_getProcInfo` takes its second argument with `argint`, so the pointer is not looked at, and
  `ProcInfo` stores three ints through it with `ptable.lock` held.  A store that faults comes back
  from `trap` with a page mapped, or not at all.  So all depends on where the 12 bytes are: the pages
  below the size are mapped as they are needed, and a byte above it is written, or ends the process
  or the kernel.

  `ProcInfo` is one function of the source with two models.  `Ptable.procInfo` gives what it
  reports and ends with an error at a null `p->parent`; `procInfo` here gives the accesses to
  memory in their order, and at a null parent `(p->parent)->pid` is a read of the int at address
  16, which may fault like any other access or return what is there.

  1. `touch` makes one access again after each fault, with whatever memory the fault finds, since
     other processors take and free pages; `touchAll` makes them one after the other;
  2. `Bounded` is what a call may do: it writes no byte but those of its 12 that are in the
     caller's memory, none at all where it returns -1, and ends neither the process nor the
     kernel;
  3. `confined_of_harmless` and `harmless_of_confined` are the two directions of
     `writes_confined`, whose condition `Harmless` is on the arguments and the table before the
     call.
-/
import OsCodes.Xv6.LazyFault

namespace OsCodes.Paging.Lazy

open Xv6 (Image Kmem PgDir kernbase pgsize uint userPages)
open Ptable (Slot Table infoSlot)

/-! ## The code -/

/-- An access of `ProcInfo` to an int through the page directory of its caller. -/
structure Ref where
  addr : Nat
  write : Bool

/-- The pages that it goes to. -/
def Ref.pages (r : Ref) : List Nat := [r.addr / pgsize, uint (r.addr + 3) / pgsize]

/-- The bytes that it writes. -/
def Ref.bytes (r : Ref) : List Nat :=
  if r.write then (List.range 4).map fun i : Nat => uint (r.addr + i) else []

/-- Whether the kernel gets to a page.  `PTE_U` is not needed; `PTE_W` is, since `entry.S` sets
    `CR0_WP`. -/
def kernelPte (d : PgDir) (v : Nat) (write : Bool) : Bool :=
  match d.entry v with
  | none => false
  | some pte => !write || pte.w

/-- Why a system call does not return. -/
inductive Stop
  /-- `trap` has called `exit` -/
  | exits
  | panics (msg : String)
  /-- not yet: the access has faulted once more -/
  | faulting

/-- `trap` for `T_PGFLT` at `addr` from kernel mode, where `killed` is not looked at. -/
def kernelTrap (img : Image) (sz addr : Nat) (d : PgDir) (k : Kmem) : Except Stop PgDir :=
  match pgfltPage sz addr with
  | none => .error .exits
  | some v =>
    match Eager.allocateOnPgflt img d v k with
    | .error msg => .error (.panics msg)
    | .ok (d, _) => .ok d

/-- The page at which it faults. -/
def Ref.fault (d : PgDir) (r : Ref) : Option Nat := r.pages.find? fun v => !kernelPte d v r.write

/-- The access `r`, which is made again after each fault.  `faults` is the memory that each fault
    finds, as other processors take pages and free them; what is left of it is returned. -/
def touch (img : Image) (sz : Nat) (r : Ref) (d : PgDir) (faults : List Kmem) :
    Except Stop (PgDir × List Kmem) :=
  match r.fault d, faults with
  | none, faults => .ok (d, faults)
  | some _, [] => .error .faulting
  | some v, k :: faults => do
    let d ← kernelTrap img sz (v * pgsize) d k
    touch img sz r d faults

/-- The accesses one after the other, and 0 is returned: the bytes written, and the result. -/
def touchAll (img : Image) (sz : Nat) : List Ref → PgDir → List Kmem → List Nat × Except Stop Int
  | [], _, _ => ([], .ok 0)
  | r :: refs, d, faults =>
    match touch img sz r d faults with
    | .error e => ([], .error e)
    | .ok (d, faults) =>
      let (written, result) := touchAll img sz refs d faults
      (r.bytes ++ written, result)

/-- The accesses of `ProcInfo` when it has found slot `q`.  Without a parent, `(p->parent)->pid` is
    the int at 16; the stores are to `ppid`, `psize` and `numberContextSwitches`. -/
def infoRefs (t : Table) (q : Slot) (pid : Int) (procinfo : Nat) : List Ref :=
  (if pid = 1 ∨ (t q).parent.isSome then [] else [⟨16, false⟩]) ++
    [⟨procinfo, true⟩, ⟨uint (procinfo + 4), true⟩, ⟨uint (procinfo + 8), true⟩]

/-- `ProcInfo`, in process `p`, with the bytes that it writes through its pointer.  A write to the
    kernel's own memory may change what comes after it, which is left out. -/
def procInfo (img : Image) (t : Table) (p : Slot) (d : PgDir) (pid : Int) (procinfo : Nat)
    (faults : List Kmem) : List Nat × Except Stop Int :=
  match infoSlot pid t with
  | none => ([], .ok (-1))
  | some q => touchAll img (t p).sz (infoRefs t q pid procinfo) d faults

/-- `sys_getProcInfo`. -/
def sysGetProcInfo (img : Image) (t : Table) (p : Slot) (d : PgDir) (esp : Nat) (mem : Words)
    (faults : List Kmem) : List Nat × Except Stop Int :=
  match argint (t p).sz mem esp 0 with
  | none => ([], .ok (-1))
  | some pid =>
    match argint (t p).sz mem esp 1 with
    | none => ([], .ok (-1))
    | some ptr => procInfo img t p d pid.toInt ptr.toNat faults

/-! ## What is wanted -/

/-- What a call with the pointer `ptr` may do in a process of size `sz`. -/
structure Bounded (sz : Nat) (ptr : Option (BitVec 32)) (out : List Nat × Except Stop Int) :
    Prop where
  inside : ∀ a ∈ out.1, a < sz ∧ a < kernbase ∧ ∃ b, ptr = some b ∧ b.toNat ≤ a ∧ a < b.toNat + 12
  failed : out.2 = .ok (-1) → out.1 = []
  alive : out.2 ≠ .error .exits
  quiet : ∀ msg, out.2 ≠ .error (.panics msg)

/-- `getProcInfo` stays within these bounds, whatever memory its faults find. -/
def Confined (img : Image) (t : Table) (p : Slot) (d : PgDir) (esp : Nat) (mem : Words) : Prop :=
  ∀ faults, (∀ k ∈ faults, FreeValid img k) →
    Bounded (t p).sz (argint (t p).sz mem esp 1) (sysGetProcInfo img t p d esp mem faults)

/-- The arguments cannot be fetched, or no process has the pid, or the 12 bytes are in the caller's
    memory and below `KERNBASE`. -/
def Harmless (t : Table) (p : Slot) (esp : Nat) (mem : Words) : Prop :=
  ∀ pid ptr, argint (t p).sz mem esp 0 = some pid → argint (t p).sz mem esp 1 = some ptr →
    infoSlot pid.toInt t = none ∨ ptr.toNat + 12 ≤ (t p).sz ∧ ptr.toNat + 12 ≤ kernbase

/-! ## A fault -/

section Write

variable {img : Image} {k₀ k : Kmem} {x : Kernel} {t : Table} {p q : Slot} {d : PgDir} {r : Ref}
  {sz v : Nat} {faults : List Kmem}

/-- A fault is at a page that the kernel does not get to. -/
theorem of_fault (h : r.fault d = some v) : v ∈ r.pages ∧ kernelPte d v r.write = false := by
  refine ⟨List.mem_of_find?_eq_some h, ?_⟩
  simpa using List.find?_some h

/-- Not to get to a page that may be written is not to find it. -/
theorem entry_of_kernelPte {write : Bool} (hw : ∀ e, d.entry v = some e → e.w = true)
    (h : kernelPte d v write = false) : d.entry v = none := by
  cases he : d.entry v with
  | none => rfl
  | some e =>
    rw [kernelPte, he] at h
    have h : (!write || e.w) = false := h
    rw [hw e he, Bool.or_true] at h
    cases h

/-- A new page is one that the kernel gets to. -/
theorem kernelPte_mapped {page u : Nat} {write : Bool} {d' : PgDir}
    (h : d'.entry = Function.update d.entry v (some (lazyPte page))) :
    kernelPte d' u write = if u = v then true else kernelPte d u write := by
  rw [kernelPte, h]
  split_ifs with hu
  · rw [hu, Function.update_self]
    exact Bool.or_true _
  · rw [Function.update_of_ne hu]
    rfl

/-- The page that `trap` has mapped for a fault at the start of page `v`. -/
theorem pgfltPage_start : pgfltPage sz (v * pgsize) = if sz < v * pgsize then none else some v := by
  have hv : v * pgsize / pgsize = v := Nat.mul_div_cancel v (by decide)
  show (if sz < v * pgsize / pgsize * pgsize then none else
    some (v * pgsize / pgsize * pgsize / pgsize)) = _
  rw [hv, hv]

/-- `trap` for a page that does not start above the size. -/
theorem kernelTrap_below (hle : v * pgsize ≤ sz) : kernelTrap img sz (v * pgsize) d k =
    match Eager.allocateOnPgflt img d v k with
    | .error msg => .error (.panics msg)
    | .ok (d, _) => .ok d := by
  rw [kernelTrap, pgfltPage_start, if_neg (Nat.not_lt_of_le hle)]

/-- **A fault at a user page** that is absent ends neither the process nor the kernel. -/
theorem kernelTrap_absent (hd : Meets Writable d) (hle : v * pgsize ≤ sz)
    (hnone : d.entry v = none) (hvalid : FreeValid img k) :
    ∃ d', kernelTrap img sz (v * pgsize) d k = .ok d' ∧ Meets Writable d' := by
  have hmeets : Allows (fun _ => True) (Eager.allocateOnPgflt img d v k) fun r =>
      Meets Writable r.1 ∧ True := Eager.allocateOnPgflt_meets .trivial hd trivial fun _ => rfl
  rw [kernelTrap_below hle]
  by_cases hfree : pgfltNeed d v ≤ k.freelist.length
  · obtain ⟨page, d', k', hrun, -⟩ := allocate_mapped img hnone hfree
    rw [hrun] at hmeets ⊢
    exact ⟨d', rfl, hmeets.1⟩
  · obtain ⟨k', hrun⟩ := allocate_refused hvalid (.inr ⟨hnone, Nat.lt_of_not_le hfree⟩)
    rw [hrun]
    exact ⟨d, rfl, hd⟩

/-- **A fault with two free pages** maps its page, or ends the process or the kernel. -/
theorem kernelTrap_served (img : Image) (sz : Nat) (d : PgDir) (v : Nat)
    (hlen : 2 ≤ k.freelist.length) :
    (∃ e, kernelTrap img sz (v * pgsize) d k = .error e ∧ e ≠ .faulting) ∨
    ∃ d' page, kernelTrap img sz (v * pgsize) d k = .ok d' ∧
      d'.entry = Function.update d.entry v (some (lazyPte page)) := by
  by_cases hle : v * pgsize ≤ sz
  · rw [kernelTrap_below hle]
    by_cases hnone : d.entry v = none
    · have hneed : pgfltNeed d v ≤ k.freelist.length := by
        rw [pgfltNeed]
        split <;> omega
      obtain ⟨page, d', k', hrun, -, hentry, -⟩ := allocate_mapped img hnone hneed
      rw [hrun]
      exact .inr ⟨d', page, rfl, hentry⟩
    · have hne : k.freelist ≠ [] := fun hnil => by
        rw [hnil] at hlen
        cases hlen
      rw [allocate_remap hnone hne]
      exact .inl ⟨.panics "remap", rfl, fun hno => by cases hno⟩
  · rw [kernelTrap, pgfltPage_start, if_pos (Nat.lt_of_not_le hle)]
    exact .inl ⟨.exits, rfl, fun hno => by cases hno⟩

/-! ## An access -/

/-- The access stays in the memory of a process of size `sz`. -/
def Ref.Inside (sz : Nat) (r : Ref) : Prop := ∀ v ∈ r.pages, v < userPages ∧ v * pgsize ≤ sz

theorem touch_ok (h : r.fault d = none) : touch img sz r d faults = .ok (d, faults) := by
  rw [touch.eq_def, h]

theorem touch_cons (h : r.fault d = some v) : touch img sz r d (k :: faults) =
    kernelTrap img sz (v * pgsize) d k >>= fun d => touch img sz r d faults := by
  rw [touch.eq_def, h]

/-- **An access inside** is made, or waits for memory. -/
theorem touch_inside (hr : r.Inside sz) (hd : Meets Writable d)
    (hvalid : ∀ k ∈ faults, FreeValid img k) :
    Allows (· = .faulting) (touch img sz r d faults) fun out =>
      Meets Writable out.1 ∧ ∀ k ∈ out.2, FreeValid img k := by
  induction faults generalizing d with
  | nil =>
    cases hfault : r.fault d with
    | none =>
      rw [touch_ok hfault]
      exact .ok ⟨hd, hvalid⟩
    | some v =>
      rw [touch.eq_def, hfault]
      exact .stop rfl
  | cons k faults ih =>
    cases hfault : r.fault d with
    | none =>
      rw [touch_ok hfault]
      exact .ok ⟨hd, hvalid⟩
    | some v =>
      obtain ⟨hk, hrest⟩ := List.forall_mem_cons.mp hvalid
      obtain ⟨hv, hpte⟩ := of_fault hfault
      obtain ⟨huser, hle⟩ := hr v hv
      have hnone := entry_of_kernelPte (fun e he => hd v e he huser) hpte
      obtain ⟨d', htrap, hd'⟩ := kernelTrap_absent hd hle hnone hk
      rw [touch_cons hfault, htrap]
      exact ih hd' hrest

/-- The pages at which an access would fault. -/
def Ref.missing (d : PgDir) (r : Ref) : Finset Nat :=
  r.pages.toFinset.filter fun v => kernelPte d v r.write = false

/-- Once a page is mapped there is one less to fault at. -/
theorem missing_mapped {page : Nat} {d' : PgDir} (hfault : r.fault d = some v)
    (h : d'.entry = Function.update d.entry v (some (lazyPte page))) :
    (r.missing d').card < (r.missing d).card := by
  obtain ⟨hv, hpte⟩ := of_fault hfault
  have hout : v ∉ r.missing d' := fun hin => by
    have hfalse := (Finset.mem_filter.mp hin).2
    rw [kernelPte_mapped h, if_pos rfl] at hfalse
    cases hfalse
  have hsub : r.missing d' ⊆ r.missing d := fun u hu => by
    obtain ⟨hpage, hfalse⟩ := Finset.mem_filter.mp hu
    have huv : u ≠ v := fun huv => hout (huv ▸ hu)
    rw [kernelPte_mapped h, if_neg huv] at hfalse
    exact Finset.mem_filter.mpr ⟨hpage, hfalse⟩
  refine Finset.card_lt_card ((Finset.ssubset_iff_of_subset hsub).mpr ⟨v, ?_, hout⟩)
  exact Finset.mem_filter.mpr ⟨List.mem_toFinset.mpr hv, hpte⟩

/-- **An access with two free pages** at each fault is made, or ends the process or the kernel. -/
theorem touch_served (img : Image) (sz : Nat) (hlen : 2 ≤ k.freelist.length) :
    ∀ {n : Nat} {d : PgDir}, (r.missing d).card = n →
    ∃ (faults : List Kmem) (out : Except Stop PgDir),
      (∀ k' ∈ faults, k' = k) ∧ out ≠ .error .faulting ∧
      ∀ rest, touch img sz r d (faults ++ rest) = out.map fun d' => (d', rest) := by
  intro n
  induction n using Nat.strong_induction_on with
  | h n ih =>
    intro d hcard
    cases hfault : r.fault d with
    | none =>
      exact ⟨[], .ok d, fun _ hno => (by cases hno), fun hno => (by cases hno), fun rest =>
        touch_ok hfault⟩
    | some v =>
      rcases kernelTrap_served img sz d v hlen with ⟨e, htrap, hne⟩ | ⟨d', page, htrap, hentry⟩
      · refine ⟨[k], .error e, fun _ => List.mem_singleton.mp, fun hno => ?_, fun rest => ?_⟩
        · exact hne (Except.error.inj hno)
        · show touch img sz r d (k :: rest) = _
          rw [touch_cons hfault, htrap]
          rfl
      · have hlt := missing_mapped hfault hentry
        rw [hcard] at hlt
        obtain ⟨faults, out, hall, hne, hrun⟩ := ih _ hlt rfl
        refine ⟨k :: faults, out, fun k' hk' => ?_, hne, fun rest => ?_⟩
        · rcases List.mem_cons.mp hk' with rfl | hk'
          · rfl
          · exact hall k' hk'
        · show touch img sz r d (k :: (faults ++ rest)) = _
          rw [touch_cons hfault, htrap]
          exact hrun rest

/-! ## All accesses -/

variable {refs : List Ref}

/-- **Accesses inside** end with 0, or wait for memory, and write only their own bytes. -/
theorem touchAll_inside (hrefs : ∀ r ∈ refs, r.Inside sz) (hd : Meets Writable d)
    (hvalid : ∀ k ∈ faults, FreeValid img k) :
    (∀ a ∈ (touchAll img sz refs d faults).1, ∃ r ∈ refs, a ∈ r.bytes) ∧
      ((touchAll img sz refs d faults).2 = .ok 0 ∨
        (touchAll img sz refs d faults).2 = .error .faulting) := by
  induction refs generalizing d faults with
  | nil => exact ⟨fun _ hno => (by cases hno), .inl rfl⟩
  | cons r refs ih =>
    obtain ⟨hr, hrest⟩ := List.forall_mem_cons.mp hrefs
    have htouch := touch_inside hr hd hvalid
    rw [touchAll]
    cases h : touch img sz r d faults with
    | error e =>
      rw [h] at htouch
      exact ⟨fun _ hno => (by cases hno), .inr (congrArg Except.error htouch)⟩
    | ok out =>
      obtain ⟨d', faults'⟩ := out
      rw [h] at htouch
      obtain ⟨hin, hend⟩ := ih hrest htouch.1 htouch.2
      refine ⟨fun a ha => ?_, hend⟩
      rcases List.mem_append.mp ha with ha | ha
      · exact ⟨r, List.mem_cons_self, ha⟩
      · obtain ⟨r', hr', ha'⟩ := hin a ha
        exact ⟨r', List.mem_cons_of_mem r hr', ha'⟩

/-- **With two free pages** at each fault there is an end. -/
theorem touchAll_served (img : Image) (sz : Nat) (refs : List Ref) (d : PgDir)
    (hlen : 2 ≤ k.freelist.length) :
    ∃ faults, (∀ k' ∈ faults, k' = k) ∧ (touchAll img sz refs d faults).2 ≠ .error .faulting := by
  induction refs generalizing d with
  | nil => exact ⟨[], fun _ hno => (by cases hno), fun hno => by cases hno⟩
  | cons r refs ih =>
    obtain ⟨faults, out, hall, hne, hrun⟩ := touch_served img sz hlen (d := d) rfl
    cases out with
    | error e =>
      refine ⟨faults ++ [], by rwa [List.append_nil], ?_⟩
      rw [touchAll, hrun]
      exact fun hno => hne (congrArg Except.error (Except.error.inj hno))
    | ok d' =>
      obtain ⟨faults', hall', hend⟩ := ih d'
      refine ⟨faults ++ faults', fun k' hk' => ?_, ?_⟩
      · rcases List.mem_append.mp hk' with hk' | hk'
        · exact hall k' hk'
        · exact hall' k' hk'
      · rw [touchAll, hrun]
        exact hend

/-- Where 0 is returned, all bytes are written. -/
theorem touchAll_returns {n : Int} (h : (touchAll img sz refs d faults).2 = .ok n) :
    (touchAll img sz refs d faults).1 = refs.flatMap Ref.bytes := by
  induction refs generalizing d faults with
  | nil => rfl
  | cons r refs ih =>
    rw [touchAll] at h ⊢
    cases ht : touch img sz r d faults with
    | error e =>
      rw [ht] at h
      cases h
    | ok out =>
      obtain ⟨d', faults'⟩ := out
      rw [ht] at h
      rw [List.flatMap_cons]
      exact congrArg (r.bytes ++ ·) (ih h)

/-! ## The accesses of `ProcInfo` -/

theorem uint_of_lt {a : Nat} (h : a < 4294967296) : uint a = a := by
  show ((a : Int) % 4294967296).toNat = a
  omega

/-- An access is inside if its last byte is. -/
theorem Ref.inside_of (hk : r.addr + 4 ≤ kernbase) (hle : (r.addr + 3) / pgsize * pgsize ≤ sz) :
    r.Inside sz := by
  have hk : r.addr + 4 ≤ 2147483648 := hk
  have hlast : uint (r.addr + 3) = r.addr + 3 := uint_of_lt (a := r.addr + 3) (by omega)
  intro v hv
  have hv : v ≤ (r.addr + 3) / pgsize := by
    rcases List.mem_pair.mp hv with rfl | rfl
    · exact Nat.div_le_div_right (Nat.le_add_right _ 3)
    · rw [hlast]
  refine ⟨?_, Nat.le_trans (Nat.mul_le_mul_right pgsize hv) hle⟩
  have hv : v ≤ (r.addr + 3) / 4096 := hv
  show v < 524288
  omega

/-- The bytes of a store that does not wrap around. -/
theorem store_bytes {a b : Nat} (h : a + 4 ≤ kernbase) (hb : b ∈ Ref.bytes ⟨a, true⟩) :
    a ≤ b ∧ b < a + 4 := by
  obtain ⟨i, hi, rfl⟩ := List.mem_map.mp hb
  have hi : i < 4 := List.mem_range.mp hi
  have h : a + 4 ≤ 2147483648 := h
  have hadd : uint (a + i) = a + i := uint_of_lt (a := a + i) (by omega)
  show a ≤ uint (a + i) ∧ uint (a + i) < a + 4
  rw [hadd]
  omega

variable {pid : Int} {ptr : Nat}

/-- What `ProcInfo` accesses, where its pointer does not wrap around. -/
theorem mem_infoRefs (hk : ptr + 12 ≤ kernbase) (hr : r ∈ infoRefs t q pid ptr) :
    r = ⟨16, false⟩ ∨ r = ⟨ptr, true⟩ ∨ r = ⟨ptr + 4, true⟩ ∨ r = ⟨ptr + 8, true⟩ := by
  have hk : ptr + 12 ≤ 2147483648 := hk
  have h4 : uint (ptr + 4) = ptr + 4 := uint_of_lt (a := ptr + 4) (by omega)
  have h8 : uint (ptr + 8) = ptr + 8 := uint_of_lt (a := ptr + 8) (by omega)
  rw [infoRefs, h4, h8] at hr
  rcases List.mem_append.mp hr with hr | hr
  · split at hr
    case isTrue => cases hr
    case isFalse => exact .inl (List.mem_singleton.mp hr)
  · right
    simpa using hr

/-- With its 12 bytes in memory, the accesses of `ProcInfo` are inside. -/
theorem infoRefs_inside (hsz : ptr + 12 ≤ sz) (hk : ptr + 12 ≤ kernbase) :
    ∀ r ∈ infoRefs t q pid ptr, r.Inside sz := by
  have hstore : ∀ a, a + 4 ≤ ptr + 12 → Ref.Inside sz ⟨a, true⟩ := fun a ha =>
    Ref.inside_of (Nat.le_trans ha hk) (Nat.le_trans (Nat.div_mul_le_self (a + 3) pgsize) (by omega))
  intro r hr
  rcases mem_infoRefs hk hr with rfl | rfl | rfl | rfl
  · exact Ref.inside_of (by decide) (Nat.zero_le sz)
  · exact hstore _ (by omega)
  · exact hstore _ (by omega)
  · exact hstore _ (by omega)

/-- It then writes its 12 bytes at most. -/
theorem infoRefs_bytes {a : Nat} (hk : ptr + 12 ≤ kernbase) (hr : r ∈ infoRefs t q pid ptr)
    (ha : a ∈ r.bytes) : ptr ≤ a ∧ a < ptr + 12 := by
  rcases mem_infoRefs hk hr with rfl | rfl | rfl | rfl
  · cases ha
  all_goals
    have := store_bytes (by omega) ha
    omega

/-- It writes each of the 12 bytes, wherever they are. -/
theorem mem_infoRefs_bytes {i : Nat} (hi : i < 12) :
    uint (ptr + i) ∈ (infoRefs t q pid ptr).flatMap Ref.bytes := by
  have hstore : ∀ a j : Nat, j < 4 → uint (a + j) = uint (ptr + i) →
      uint (ptr + i) ∈ Ref.bytes ⟨a, true⟩ := fun a j hj h =>
    List.mem_map.mpr ⟨j, List.mem_range.mpr hj, h⟩
  have hadd : ∀ m : Nat, m ≤ i → uint (uint (ptr + m) + (i - m : Nat)) = uint (ptr + i) := by
    intro m hm
    show ((((((ptr : Int) + m) % 4294967296).toNat : Int) + (i - m : Nat)) % 4294967296).toNat =
      (((ptr : Int) + i) % 4294967296).toNat
    omega
  rw [infoRefs, List.flatMap_append]
  refine List.mem_append_right _ ?_
  by_cases h4 : i < 4
  · exact List.mem_append_left _ (hstore ptr i h4 rfl)
  · refine List.mem_append_right _ ?_
    by_cases h8 : i < 8
    · exact List.mem_append_left _ (hstore _ (i - 4) (by omega) (hadd 4 (by omega)))
    · refine List.mem_append_right _ (List.mem_append_left _ ?_)
      exact hstore _ (i - 8) (by omega) (hadd 8 (by omega))

/-! ## Every call -/

/-- `userinit` has found two free pages. -/
theorem boot_free (hstart : (system img k₀).start x) : 2 ≤ k₀.freelist.length := by
  have hstart : userinit img (boot k₀) = .ok x := hstart
  have hslot : unusedSlot (boot k₀) = some Ptable.initproc := rfl
  rw [userinit] at hstart
  cases hfree : k₀.freelist with
  | nil =>
    have hk : Plain.kalloc k₀ = .ok (none, k₀) := by
      rw [Plain.kalloc, hfree]
    obtain ⟨x₁, halloc, -⟩ := allocproc_none (A := plain) hslot hk
    rw [halloc] at hstart
    cases hstart
  | cons kstack rest =>
    cases rest with
    | cons pgdir rest => exact Nat.le_add_left 2 rest.length
    | nil =>
      have hk : Plain.kalloc k₀ = .ok (some kstack, { k₀ with freelist := [] }) := by
        rw [Plain.kalloc, hfree]
      obtain ⟨x₁, halloc, hmem, -⟩ := allocproc_some (A := plain) hslot hk
      rw [halloc] at hstart
      have hstart : (setupkvm plain img x₁.mem.kmem >>= fun _ => _) = .ok x := hstart
      rw [hmem] at hstart
      cases hstart

theorem reach_free (hr : (system img k₀).Reach x) : 2 ≤ k₀.freelist.length :=
  hr.invariant (fun _ hstart => boot_free hstart) fun _ _ _ h _ => h

/-- `sys_getProcInfo` with both arguments, for a process that is there. -/
theorem sysGetProcInfo_eq {esp : Nat} {mem : Words} {pid ptr : BitVec 32}
    (hpid : argint (t p).sz mem esp 0 = some pid) (hptr : argint (t p).sz mem esp 1 = some ptr)
    (hq : infoSlot pid.toInt t = some q) : sysGetProcInfo img t p d esp mem faults =
      touchAll img (t p).sz (infoRefs t q pid.toInt ptr.toNat) d faults := by
  rw [sysGetProcInfo, hpid]
  show (match argint (t p).sz mem esp 1 with | none => _ | some ptr => _) = _
  rw [hptr]
  show procInfo img t p d pid.toInt ptr.toNat faults = _
  rw [procInfo, hq]

/-- `sys_getProcInfo` without an argument, or for a process that is not there. -/
theorem sysGetProcInfo_failed {esp : Nat} {mem : Words}
    (h : ∀ pid ptr, argint (t p).sz mem esp 0 = some pid → argint (t p).sz mem esp 1 = some ptr →
      infoSlot pid.toInt t = none) : sysGetProcInfo img t p d esp mem faults = ([], .ok (-1)) := by
  rw [sysGetProcInfo]
  split
  case h_1 => rfl
  case h_2 pid hpid =>
    split
    case h_1 => rfl
    case h_2 ptr hptr => rw [procInfo, h pid ptr hpid hptr]

/-- A call that returns 0, or waits for memory, is bounded by what it has written. -/
theorem Bounded.of_end {o : Option (BitVec 32)} {out : List Nat × Except Stop Int}
    (hin : ∀ a ∈ out.1, a < sz ∧ a < kernbase ∧ ∃ b, o = some b ∧ b.toNat ≤ a ∧ a < b.toNat + 12)
    (hend : out.2 = .ok 0 ∨ out.2 = .error .faulting) : Bounded sz o out := by
  refine ⟨hin, fun hno => ?_, fun hno => ?_, fun msg hno => ?_⟩ <;>
  · rcases hend with hend | hend <;> cases hend.symm.trans hno

/-- **With the 12 bytes in memory** the call stays within its bounds. -/
theorem confined_of_harmless {esp : Nat} {mem : Words} (hd : Meets Writable d)
    (h : Harmless t p esp mem) : Confined img t p d esp mem := by
  intro faults hvalid
  by_cases hfail : ∀ pid ptr, argint (t p).sz mem esp 0 = some pid →
      argint (t p).sz mem esp 1 = some ptr → infoSlot pid.toInt t = none
  · rw [sysGetProcInfo_failed hfail]
    exact ⟨fun _ hno => (by cases hno), fun _ => rfl, fun hno => (by cases hno),
      fun _ hno => by cases hno⟩
  · push Not at hfail
    obtain ⟨pid, ptr, hpid, hptr, hne⟩ := hfail
    obtain ⟨q, hq⟩ := Option.ne_none_iff_exists'.mp hne
    obtain ⟨hsz, hk⟩ := (h pid ptr hpid hptr).resolve_left hne
    have hinside : ∀ r ∈ infoRefs t q pid.toInt ptr.toNat, r.Inside (t p).sz :=
      infoRefs_inside hsz hk
    obtain ⟨hin, hend⟩ := touchAll_inside hinside hd hvalid
    rw [sysGetProcInfo_eq hpid hptr hq]
    refine .of_end (fun a ha => ?_) hend
    obtain ⟨r, hr, har⟩ := hin a ha
    obtain ⟨hge, hlt⟩ := infoRefs_bytes hk hr har
    exact ⟨Nat.lt_of_lt_of_le hlt hsz, Nat.lt_of_lt_of_le hlt hk, ptr, hptr, hge, hlt⟩

/-- **With a byte elsewhere** it does not. -/
theorem harmless_of_confined {esp : Nat} {mem : Words} (hvalid : FreeValid img k)
    (hlen : 2 ≤ k.freelist.length) (h : Confined img t p d esp mem) : Harmless t p esp mem := by
  intro pid ptr hpid hptr
  cases hq : infoSlot pid.toInt t with
  | none => exact .inl rfl
  | some q =>
    obtain ⟨faults, hall, hend⟩ := touchAll_served img (t p).sz
      (infoRefs t q pid.toInt ptr.toNat) d hlen
    have hb := h faults fun k' hk' => (hall k' hk').symm ▸ hvalid
    rw [sysGetProcInfo_eq hpid hptr hq] at hb
    cases hout : (touchAll img (t p).sz (infoRefs t q pid.toInt ptr.toNat) d faults).2 with
    | error stop =>
      cases stop with
      | exits => exact absurd hout hb.alive
      | panics msg => exact absurd hout (hb.quiet msg)
      | faulting => exact absurd hout hend
    | ok n =>
      -- all bytes are written, so the last one is in memory
      have hin := hb.inside (uint (ptr.toNat + 11)) (by
        rw [touchAll_returns hout]
        exact mem_infoRefs_bytes (i := 11) (by decide))
      obtain ⟨hsz, hk, b, hb, hge, hlt⟩ := hin
      rw [hptr] at hb
      obtain rfl := Option.some.inj hb
      have hadd : uint (ptr.toNat + 11) = (ptr.toNat + 11) % 4294967296 := by
        show (((ptr.toNat : Int) + 11) % 4294967296).toNat = _
        omega
      have hsmall := ptr.isLt
      rw [hadd] at hsz hk hge
      omega

/-- **When `getProcInfo` is confined.**  In every state of a run of xv6-public, whatever the process
    table and the arguments: the call returns -1 and writes nothing, or writes only the 12 bytes of
    its `struct processInfo`, all below the size and below `KERNBASE`, and no fault with the lock held
    ends the process or the kernel, exactly when `Harmless` says so. -/
theorem writes_confined (hboot : Booted img k₀) (hr : (system img k₀).Reach x)
    (hd : x.mem.dirs p = some d) (esp : Nat) (mem : Words) :
    Confined img t p d esp mem ↔ Harmless t p esp mem := by
  have hwrite : Meets Writable d := fun v e he hv => reach_writable hr hd hv he
  exact ⟨harmless_of_confined (boot_freeValid hboot) (reach_free hr), confined_of_harmless hwrite⟩

end Write

/-- The process table with the first process alone, in a system call. -/
def firstTable : Table := fun p =>
  if p = Ptable.initproc then ⟨4096, .running, 1, none, 0, false, 0, 500, 0, 0⟩
  else ⟨0, .unused, 0, none, 0, false, 0, 0, 0, 0⟩

/-- Asks for process 1, with a pointer. -/
def firstArgs (ptr : BitVec 32) : Words := fun a => if a = 4 then 1 else ptr

theorem firstArgs_eq (ptr : BitVec 32) :
    argint (firstTable Ptable.initproc).sz (firstArgs ptr) 0 0 = some 1 ∧
    argint (firstTable Ptable.initproc).sz (firstArgs ptr) 0 1 = some ptr := ⟨rfl, rfl⟩

theorem firstTable_slot : infoSlot 1 firstTable = some Ptable.initproc := rfl

/-- The first process asks for itself, with a pointer to its own memory. -/
theorem writes_confined_first : ∃ (k₀ : Kmem) (x : Kernel) (d : PgDir),
    (system bootImage k₀).Reach x ∧ x.mem.dirs Ptable.initproc = some d ∧
    (x.tasks Ptable.initproc).sz = (firstTable Ptable.initproc).sz ∧
    Confined bootImage firstTable Ptable.initproc d 0 (firstArgs 64) := by
  obtain ⟨k₀, hboot, x, h0, hfirst, -⟩ := first_exists
  obtain ⟨d, hd, -⟩ := hfirst.dir
  have hr : (system bootImage k₀).Reach x := .start h0
  refine ⟨k₀, x, d, hr, hd, hfirst.initproc.2, (writes_confined hboot hr hd 0 _).mpr ?_⟩
  intro pid ptr _ hptr
  obtain rfl := Option.some.inj ((firstArgs_eq 64).2.symm.trans hptr)
  exact .inr (by decide)

/-- **Other memory**: with a pointer above its size the first process exits in the middle of
    `ProcInfo`, and a pointer to the kernel is no better. -/
theorem writes_escape : ∃ (k₀ : Kmem) (x : Kernel) (d : PgDir),
    (system bootImage k₀).Reach x ∧ x.mem.dirs Ptable.initproc = some d ∧
    (x.tasks Ptable.initproc).sz = (firstTable Ptable.initproc).sz ∧
    sysGetProcInfo bootImage firstTable Ptable.initproc d 0 (firstArgs 12288) [k₀] =
      ([], .error .exits) ∧
    ¬Confined bootImage firstTable Ptable.initproc d 0 (firstArgs 12288) ∧
    ¬Confined bootImage firstTable Ptable.initproc d 0 (firstArgs 0x80000000) := by
  obtain ⟨k₀, hboot, x, h0, hfirst, hlen⟩ := first_exists
  obtain ⟨d, hd, hnone, -⟩ := hfirst.dir
  have hvalid := boot_freeValid hboot
  have hpte : kernelPte d 3 true = false := by
    rw [kernelPte, hnone 3 (by decide) (by decide)]
  have hfault : Ref.fault d ⟨12288, true⟩ = some 3 := by
    show List.find? (fun v => !kernelPte d v true) [3, 3] = some 3
    rw [List.find?_cons_of_pos (by rw [hpte]; rfl)]
  have htrap : kernelTrap bootImage 4096 (3 * pgsize) d k₀ = .error .exits := by
    rw [kernelTrap, pgfltPage_start, if_pos (by decide)]
  have hrun : sysGetProcInfo bootImage firstTable Ptable.initproc d 0 (firstArgs 12288) [k₀] =
      ([], .error .exits) := by
    rw [sysGetProcInfo_eq (firstArgs_eq _).1 (firstArgs_eq _).2 firstTable_slot]
    show touchAll bootImage 4096 (⟨12288, true⟩ :: _) d [k₀] = _
    rw [touchAll, touch_cons hfault, htrap]
    rfl
  refine ⟨k₀, x, d, .start h0, hd, hfirst.initproc.2, hrun, fun hconf => ?_, fun hconf => ?_⟩
  · have hb := hconf [k₀] fun k hk => by rwa [List.mem_singleton.mp hk]
    rw [hrun] at hb
    exact hb.alive rfl
  · rcases harmless_of_confined hvalid (by omega) hconf 1 0x80000000 (firstArgs_eq _).1
      (firstArgs_eq _).2 with hno | ⟨-, hk⟩
    · cases firstTable_slot.symm.trans hno
    · exact absurd hk (by decide)

end OsCodes.Paging.Lazy
