/-
  `numvp` and `numpp` over every run of xv6-public.

  A record keeps, for each process, the pages that `mmap` has added to it and that were not touched
  since.  Every call keeps `Accounted`: below its size a process has all pages but those recorded.
  So the two numbers differ by the length of the record, and what a call does to one follows from what
  it does to the other and to the record.

  1. `note` says what a call does to the record: `mmap` adds the new pages, an access that maps a
     page takes it out, a smaller size takes out what is above it, a successful `exec` starts
     anew, and a child gets the record of its parent;
  2. `Fitting` is what the calls have to be like: sizes stay below `KERNBASE`, accesses are below
     the size, and there is memory for what is mapped;
  3. `Accounted.step` and `reach_accounted` carry the record over all runs;
  4. `page_accounts` states what follows for the two numbers: `numpp` is at most `numvp`, they
     differ by the pages that were not touched, and each call raises them as it should.
-/
import OsCodes.Xv6.LazyFault
import OsCodes.Xv6.LazyPages

namespace OsCodes.Paging.Lazy

open Refcount
open Xv6 (Image Kmem PgDir kernbase pgsize uint userPte userPages pages pdx)
open Ptable (Slot)

/-! ## Calls that fit -/

/-- The pages that `allocuvm` takes: those to map, and the page tables that are missing. -/
def growNeed (d : PgDir) (oldsz newsz : Nat) : Nat :=
  (pages newsz - pages oldsz) +
    (span (pages oldsz) (pages newsz - pages oldsz) \ d.tabs).card

/-- Sizes stay positive and below `KERNBASE`, accesses are below the size and not to a page without
    `PTE_U`, and there is memory for what is mapped. -/
def Fitting (x : Kernel) : Call → Prop
  | .sbrk p esp mem => ∀ n d, argint (x.tasks p).sz mem esp 0 = some n → x.mem.dirs p = some d →
      0 < (x.tasks p).sz + n.toInt ∧ (x.tasks p).sz + n.toInt < kernbase ∧
      growNeed d (x.tasks p).sz (uint ((x.tasks p).sz + n.toInt)) ≤ x.mem.kmem.freelist.length
  | .mmap p esp mem => ∀ n, argint (x.tasks p).sz mem esp 0 = some n → 0 < n.toInt →
      n.toInt % pgsize = 0 → (x.tasks p).sz + n.toInt < kernbase
  | .access p addr _ => addr < (x.tasks p).sz ∧ ∀ d, x.mem.dirs p = some d →
      (∀ e, d.entry (addr / pgsize) = some e → e.u = true) ∧
      (d.entry (addr / pgsize) = none →
        pgfltNeed d (addr / pgsize) ≤ x.mem.kmem.freelist.length)
  | _ => True

/-! ## The record -/

/-- The pages below the size that `mmap` has added to a process and that it has not touched. -/
abbrev Record := Slot → Finset Nat

/-- Which pages of a process are promised and not yet touched, after one more call. -/
def note (x : Kernel) (u : Record) (e : Call × Int) : Record :=
  match e.1 with
  | .mmap p esp mem => Function.update u p (u p ∪
      Finset.Ico (pages (x.tasks p).sz) (pages (sysMmap (x.tasks p).sz esp mem).2))
  | .access p addr _ => Function.update u p ((u p).erase (addr / pgsize))
  | .sbrk p esp mem =>
    match argint (x.tasks p).sz mem esp 0 with
    | none => u
    | some n => Function.update u p
        ((u p).filter fun v => v < pages (uint ((x.tasks p).sz + n.toInt)))
  | .exec p _ _ => if e.2 = 0 then Function.update u p ∅ else u
  | .fork p =>
    match unusedSlot x with
    | none => u
    | some np => Function.update u np (u p)
  | _ => u

/-- xv6-public with the record, and calls that fit. -/
def accounted (img : Image) (k₀ : Kmem) : Lts (Kernel × Record) (Call × Int) :=
  ((system img k₀).withGhost (fun _ => ∅) note).guard fun s e => Fitting s.1 e.1

/-- Processes have all pages below their size but those in the record. -/
def Accounted (x : Kernel) (u : Record) : Prop :=
  ∀ p d, x.mem.dirs p = some d → Filled d (x.tasks p).sz (u p)

/-- `sys_numpp`, of process `p`; nothing for a process without memory. -/
def numpp (x : Kernel) (p : Slot) : Option Nat :=
  (x.mem.dirs p).bind fun d => numPhyPage d (x.tasks p).sz

section Accounts

variable {img : Image} {pool : Finset Nat} {hvalid : ∀ p ∈ pool, img.endPage ≤ p ∧ p < Xv6.frames}
  {x x' : Kernel} {u u' : Record} {p : Slot} {d : PgDir} {k : Kmem}

/-- A step of one process. -/
theorem Accounted.beside {o : Option PgDir} (h : Accounted x u) (hb : Beside x p o k x')
    (hu : ∀ q, q ≠ p → u' q = u q) (ho : ∀ d, o = some d → Filled d (x'.tasks p).sz (u' p)) :
    Accounted x' u' := by
  intro q d hd
  rw [hb.mem_eq] at hd
  have hd : Function.update x.mem.dirs p o q = some d := hd
  by_cases hqp : q = p
  · rw [hqp, Function.update_self] at hd
    rw [hqp]
    exact ho d hd
  · rw [Function.update_of_ne hqp] at hd
    rw [hb.tasks_eq q hqp, hu q hqp]
    exact h q d hd

/-- A step that leaves directories and sizes. -/
theorem Accounted.same (h : Accounted x u) (hdirs : x'.mem.dirs = x.mem.dirs)
    (hsz : ∀ q, (x'.tasks q).sz = (x.tasks q).sz) : Accounted x' u := by
  intro q d hd
  rw [hdirs] at hd
  rw [hsz q]
  exact h q d hd

/-! ## What is noted -/

theorem note_sbrk {esp : Nat} {mem : Words} {n : BitVec 32} {r : Int}
    (hn : argint (x.tasks p).sz mem esp 0 = some n) : note x u (.sbrk p esp mem, r) =
      Function.update u p
        ((u p).filter fun v => v < pages (uint ((x.tasks p).sz + n.toInt))) := by
  show (match argint (x.tasks p).sz mem esp 0 with | none => u | some n => _) = _
  rw [hn]

theorem note_sbrk_failed {esp : Nat} {mem : Words} {r : Int}
    (hn : argint (x.tasks p).sz mem esp 0 = none) : note x u (.sbrk p esp mem, r) = u := by
  show (match argint (x.tasks p).sz mem esp 0 with | none => u | some n => _) = u
  rw [hn]

theorem note_fork {np : Slot} {r : Int} (hslot : unusedSlot x = some np) :
    note x u (.fork p, r) = Function.update u np (u p) := by
  show (match unusedSlot x with | none => u | some np => Function.update u np (u p)) = _
  rw [hslot]

/-- `fork` notes nothing for the others. -/
theorem note_fork_of_ne {q : Slot} {r : Int} (hq : unusedSlot x ≠ some q) :
    note x u (.fork p, r) q = u q := by
  cases hslot : unusedSlot x with
  | none =>
    show (match unusedSlot x with | none => u | some np => Function.update u np (u p)) q = _
    rw [hslot]
  | some np =>
    rw [note_fork hslot]
    refine Function.update_of_ne ?_ _ _
    rintro rfl
    exact hq hslot

/-! ## Touching a page -/

/-- A page that is present is not in the record. -/
theorem Filled.erase_present {sz v : Nat} {absent : Finset Nat} (h : Filled d sz absent)
    (hv : v < userPages) (hne : d.entry v ≠ none) : absent.erase v = absent :=
  Finset.erase_eq_of_notMem ((h.entry v hv).mp hne).2

/-- A page below the size is mapped. -/
theorem Filled.mapped {sz v : Nat} {absent : Finset Nat} {d' : PgDir} {e : Xv6.Pte}
    (h : Filled d sz absent) (hv : v < pages sz)
    (hentry : d'.entry = Function.update d.entry v (some e)) : Filled d' sz (absent.erase v) := by
  refine ⟨h.size, fun w hw => h.below w (Finset.mem_of_mem_erase hw), fun w hw => ?_⟩
  rw [hentry, Finset.mem_erase]
  by_cases hwv : w = v
  · rw [hwv, Function.update_self]
    exact iff_of_true (fun hno => (by cases hno)) ⟨hv, fun hno => hno.1 rfl⟩
  · rw [Function.update_of_ne hwv, h.entry w hw]
    exact and_congr_right fun _ => not_congr ⟨fun habs => ⟨hwv, habs⟩, And.right⟩

/-- **An access below the size** finds its page, or maps it. -/
theorem access_fitting (img : Image) {addr : Nat} {write : Bool} (hd : x.mem.dirs p = some d)
    (hf : Filled d (x.tasks p).sz (u p))
    (hw : ∀ v e, v < userPages → d.entry v = some e → e.w = true)
    (hok : Fitting x (.access p addr write)) :
    (d.entry (addr / pgsize) ≠ none ∧ access img p addr write x = .ok (0, x)) ∨
    (d.entry (addr / pgsize) = none ∧ ∃ page d' k', access img p addr write x =
        .ok (0, { x with mem := x.mem.setDir p (some d') k' }) ∧
      d'.entry = Function.update d.entry (addr / pgsize) (some (lazyPte page))) := by
  obtain ⟨hlt, hpage⟩ := hok
  obtain ⟨huser, hmem⟩ := hpage d hd
  have hv : addr / pgsize < userPages :=
    Nat.lt_of_lt_of_le (Xv6.page_lt_pages hlt) (Xv6.pages_le hf.size)
  cases he : d.entry (addr / pgsize) with
  | some e =>
    refine .inl ⟨fun hno => (by cases hno), ?_⟩
    exact access_present hd (Xv6.userPte_eq_ok.mpr ⟨he, huser e he, .inl (hw _ e hv he)⟩)
  | none =>
    obtain ⟨page, d', k', hrun, -, hentry, -⟩ := allocate_mapped img he (hmem he)
    refine .inr ⟨rfl, page, d', k', ?_, hentry⟩
    have hle : ¬ (x.tasks p).sz < addr / pgsize * pgsize := by
      have hdiv : addr / pgsize * pgsize ≤ addr := Nat.div_mul_le_self addr pgsize
      omega
    cases hpte : userPte d (addr / pgsize) write with
    | ok e =>
      rw [(Xv6.userPte_eq_ok.mp hpte).1] at he
      cases he
    | error e =>
      rw [access_fault hd hpte, trap_below hd hle, hrun]
      rfl

/-! ## `sbrk` -/

/-- Where the size grows, the record stays. -/
theorem Filled.filter_grown {sz newsz : Nat} {absent : Finset Nat} (h : Filled d sz absent)
    (hle : sz ≤ newsz) : (absent.filter fun v => v < pages newsz) = absent :=
  Finset.filter_true_of_mem fun v hv =>
    Nat.lt_of_lt_of_le (h.below v hv) (Xv6.pages_mono hle)

/-- **`growproc`** to a size that is positive. -/
theorem growproc_filled {B : Books plain img} {R : Refs Nat} {sz : Nat} {n : Int}
    {absent : Finset Nat} (hf : Filled d sz absent) (hpos : 0 < sz + n) (hlt : sz + n < kernbase)
    (h : B.Acct k (R + d.uses)) : Allows (fun _ => True) (growproc img d sz n k) fun r =>
      Filled r.2.2.1 r.2.1 (absent.filter fun v => v < pages (uint (sz + n))) := by
  have hmax : (sz : Int) + n < 2147483648 := hlt
  have hnew : (uint (sz + n) : Int) = sz + n := by
    show ((((sz : Int) + n) % 4294967296).toNat : Int) = sz + n
    omega
  rw [growproc]
  generalize uint (sz + n) = newsz at hnew ⊢
  split
  case isTrue hgrow =>
    rw [hf.filter_grown (by omega)]
    apply (allocuvm_filled hf h).bind
    rintro ⟨r, d₁, k₁⟩ ⟨-, hf₁⟩
    have hf₁ : Filled d₁ (if r = 0 then sz else r) absent := hf₁
    show Allows _ (if r = 0 then _ else _) _
    split
    case isTrue hzero =>
      rw [if_pos hzero] at hf₁
      exact .ok hf₁
    case isFalse hne =>
      rw [if_neg hne] at hf₁
      exact .ok hf₁
  case isFalse =>
    split
    case isTrue hshrink =>
      have hless : newsz < sz := by omega
      apply (deallocuvm_filled hf hless h).bind
      rintro ⟨r, d₁, k₁⟩ ⟨hr, -, hf₁⟩
      obtain rfl : r = newsz := hr
      show Allows _ (if r = 0 then _ else _) _
      rw [if_neg (by omega)]
      exact .ok hf₁
    case isFalse =>
      rw [hf.filter_grown (by omega)]
      exact .ok hf

/-! ## `fork` -/

/-- **`allocproc`** changes no directory and no size. -/
theorem Good.allocproc (h : Good img pool hvalid x) :
    Allows (fun _ => True) (allocproc plain x) fun r => r.2.mem.dirs = x.mem.dirs ∧
      (∀ q, (r.2.tasks q).sz = (x.tasks q).sz) ∧ ∀ np kstack, r.1 = some (np, kstack) →
        unusedSlot x = some np ∧
        (Plain.books img pool hvalid).Acct r.2.mem.kmem (x.mem.refs + .owner kstack) := by
  have hset : ∀ (x' : Kernel) (np : Slot) (t : Task), t.sz = (x.tasks np).sz →
      x'.tasks = x.tasks → ∀ q, ((x'.setTask np t).tasks q).sz = (x.tasks q).sz := by
    intro x' np t ht hx' q
    show (Function.update x'.tasks np t q).sz = _
    by_cases hq : q = np
    · rw [hq, Function.update_self, ht]
    · rw [Function.update_of_ne hq, hx']
  rw [Paging.allocproc]
  split
  case h_1 => exact .ok ⟨rfl, fun _ => rfl, fun _ _ hno => by cases hno⟩
  case h_2 np hslot =>
    apply ((Plain.books img pool hvalid).kalloc_spec h.acct).bind
    rintro ⟨r, k⟩ htaken
    cases r with
    | none => exact .ok ⟨rfl, hset _ np _ rfl rfl, fun _ _ hno => by cases hno⟩
    | some kstack =>
      refine .ok ⟨rfl, hset _ np _ rfl rfl, fun np' kstack' heq => ?_⟩
      obtain ⟨rfl, rfl⟩ := Prod.mk.inj (Option.some.inj heq)
      exact ⟨hslot, htaken.2.1⟩

/-- **`fork`** leaves the other processes, and a child has all pages, as its parent must. -/
theorem Good.fork_filled (h : Good img pool hvalid x) (hd : x.mem.dirs p = some d) :
    Allows (fun _ => True) (Eager.fork img p x) fun r =>
      (r.2.mem.dirs = x.mem.dirs ∧ ∀ q, (r.2.tasks q).sz = (x.tasks q).sz) ∨
      ∃ np d', unusedSlot x = some np ∧ r.2.mem.dirs = Function.update x.mem.dirs np (some d') ∧
        (∀ q, q ≠ np → (r.2.tasks q).sz = (x.tasks q).sz) ∧
        (r.2.tasks np).sz = (x.tasks p).sz ∧
        (∀ v, v < pages (x.tasks p).sz → d.entry v ≠ none ∧ d'.entry v ≠ none) ∧
        ∀ v, v < userPages → pages (x.tasks p).sz ≤ v → d'.entry v = none := by
  rw [Eager.fork, forkWith]
  apply h.allocproc.bind
  rintro ⟨r, x₁⟩ ⟨hdirs, hsz, hslot⟩
  have hdirs : x₁.mem.dirs = x.mem.dirs := hdirs
  have hsz : ∀ q, (x₁.tasks q).sz = (x.tasks q).sz := hsz
  cases r with
  | none => exact .ok (.inl ⟨hdirs, hsz⟩)
  | some slot =>
    obtain ⟨np, kstack⟩ := slot
    obtain ⟨hnp, hacct⟩ := hslot np kstack rfl
    have hused : ∀ v e, v < userPages → d.entry v = some e →
        0 < (x.mem.refs + .owner kstack).total e.page := fun v e hv he => by
      have hpos := Xv6.uses_pos hv he
      rw [Refs.total_add, Counts.refs_eq x.mem p, hd, Refs.total_add]
      exact Nat.add_pos_left (Nat.add_pos_right _ hpos) _
    have hdir : x₁.mem.dir p = .ok d := Counts.dir_eq (by rw [hdirs, hd])
    have hsame : Function.update x₁.mem.dirs p (some d) = x.mem.dirs := by
      rw [hdirs, ← hd, Function.update_eq_self]
    show Allows _ (x₁.mem.dir p >>= _) _
    rw [hdir]
    show Allows _ ((Eager.copyuvm img d (x₁.tasks p).sz x₁.mem.kmem >>= _) >>= _) _
    rw [bind_assoc, hsz p]
    apply (Eager.copyuvm_spec (h.gap hd) hused (fun _ _ _ _ _ => ⟨trivial, trivial⟩) hacct).bind
    rintro ⟨child, k⟩ hcopy
    have hcopy : Eager.Forked (Plain.books img pool hvalid) (x.mem.refs + .owner kstack) d
      (x.tasks p).sz x₁.mem.kmem child k := hcopy
    have htask : ∀ (t : Task) q, q ≠ np → (Function.update x₁.tasks np t q).sz = (x.tasks q).sz :=
      fun t q hq => by rw [Function.update_of_ne hq, hsz]
    cases child with
    | none =>
      show Allows _ (Plain.kfree img kstack k >>= _) _
      refine .skip fun k₁ => .ok (.inl ⟨hsame, fun q => ?_⟩)
      by_cases hq : q = np
      · show (Function.update x₁.tasks np _ q).sz = _
        rw [hq, Function.update_self]
        exact hsz np
      · exact htask _ q hq
    | some d' =>
      obtain ⟨-, hpages, habove⟩ := hcopy.done d' rfl
      refine .ok (.inr ⟨np, d', hnp, ?_, htask _, ?_, fun v hv => ?_, habove⟩)
      · show Function.update (Function.update x₁.mem.dirs p (some d)) np (some d') = _
        rw [hsame]
      · show (Function.update x₁.tasks np _ np).sz = _
        rw [Function.update_self]
        exact hsz p
      · obtain ⟨-, e, e', he, he', -⟩ := hpages v hv
        rw [he, he']
        exact ⟨fun hno => (by cases hno), fun hno => by cases hno⟩

/-! ## Every call -/

theorem Accounted.fork {r : Int} (h : Accounted x u) (hgood : Good img pool hvalid x)
    (hd : x.mem.dirs p = some d) : Allows (fun _ => True) (Eager.fork img p x) fun r' =>
      Accounted r'.2 (note x u (.fork p, r)) := by
  refine (hgood.fork_filled hd).mono ?_
  rintro ⟨r', x'⟩ (⟨hdirs, hsz⟩ | ⟨np, d', hslot, hdirs, hsz, hsize, hpages, habove⟩)
  · intro q d₁ hd₁
    have hd₁ : x'.mem.dirs q = some d₁ := hd₁
    rw [hdirs] at hd₁
    rw [note_fork_of_ne fun hslot => ?_, hsz]
    · exact h q d₁ hd₁
    · rw [(hgood.slot hslot).2] at hd₁
      cases hd₁
  · have hf := h p d hd
    intro q d₁ hd₁
    have hd₁ : x'.mem.dirs q = some d₁ := hd₁
    rw [hdirs] at hd₁
    by_cases hq : q = np
    · -- the child, whose parent has no absent page
      rw [hq, Function.update_self] at hd₁
      rw [hq]
      obtain rfl := Option.some.inj hd₁
      rw [note_fork hslot, Function.update_self]
      show Filled d' (x'.tasks np).sz _
      rw [hsize]
      refine ⟨hf.size, hf.below, fun v hv => ?_⟩
      by_cases hlt : v < pages (x.tasks p).sz
      · have hboth := hpages v hlt
        exact iff_of_true hboth.2 ⟨hlt, ((hf.entry v hv).mp hboth.1).2⟩
      · exact iff_of_false (not_not.mpr (habove v hv (Nat.le_of_not_lt hlt)))
          fun hin => hlt hin.1
    · rw [Function.update_of_ne hq] at hd₁
      rw [note_fork_of_ne fun hslot' => hq (Option.some.inj (hslot'.symm.trans hslot)), hsz q hq]
      exact h q d₁ hd₁

theorem Accounted.exec {phs : List ProgHdr} {args : Bool} (h : Accounted x u)
    (hgood : Good img pool hvalid x) : Allows (fun _ => True) (exec img p phs args x) fun r =>
      Accounted r.2 (note x u (.exec p phs args, r.1)) := by
  rw [Lazy.exec]
  refine with_dir fun d hd => ?_
  apply (execImage_filled trivial (hgood.live hd)).bind
  rintro ⟨new, k⟩ hnew
  cases new with
  | none => exact .ok (h.same rfl fun _ => rfl)
  | some r =>
    obtain ⟨sz, d'⟩ := r
    obtain ⟨-, hf⟩ := hnew
    show Allows _ (Paging.freevm plain img d k >>= _) _
    refine .skip fun k₁ => .ok ?_
    have hnote : note x u (.exec p phs args, 0) = Function.update u p ∅ := rfl
    show Accounted (resize x p sz d' k₁) (note x u (.exec p phs args, 0))
    rw [hnote]
    refine h.beside (beside_resize x p sz d' k₁) (fun q hq => Function.update_of_ne hq _ _) ?_
    intro d₁ hd₁
    rw [resize_task, Function.update_self, ← Option.some.inj hd₁]
    exact hf

theorem Accounted.sbrk {esp : Nat} {mem : Words} {r : Int} (h : Accounted x u)
    (hgood : Good img pool hvalid x) (hok : Fitting x (.sbrk p esp mem)) :
    Allows (fun _ => True) (sysSbrk img p esp mem x) fun r' =>
      Accounted r'.2 (note x u (.sbrk p esp mem, r)) := by
  rw [sysSbrk]
  cases hn : argint (x.tasks p).sz mem esp 0 with
  | none =>
    rw [note_sbrk_failed hn]
    exact .ok h
  | some n =>
    refine with_dir fun d hd => ?_
    obtain ⟨hpos, hlt, -⟩ := hok n d hn hd
    rw [note_sbrk hn]
    apply (growproc_filled (h p d hd) hpos hlt (hgood.live hd)).bind
    rintro ⟨r', sz, d', k⟩ hf
    refine .ok (h.beside (beside_resize x p sz d' k) (fun q hq => Function.update_of_ne hq _ _) ?_)
    intro d₁ hd₁
    rw [resize_task, Function.update_self, ← Option.some.inj hd₁]
    exact hf

theorem Accounted.mmap {esp : Nat} {mem : Words} {r : Int} (h : Accounted x u)
    (hok : Fitting x (.mmap p esp mem)) : Accounted
      (x.setTask p { x.tasks p with sz := (sysMmap (x.tasks p).sz esp mem).2 })
      (note x u (.mmap p esp mem, r)) := by
  refine h.beside (beside_task x p _) (fun q hq => Function.update_of_ne hq _ _) fun d hd => ?_
  have hf := h p d hd
  have hsize := hf.size
  rw [setTask_task]
  show Filled d (sysMmap (x.tasks p).sz esp mem).2 (Function.update u p _ p)
  rw [Function.update_self]
  have hmono : (x.tasks p).sz ≤ (sysMmap (x.tasks p).sz esp mem).2 ∧
      (sysMmap (x.tasks p).sz esp mem).2 ≤ kernbase := by
    rcases sysMmap_size (x.tasks p).sz esp mem with hsame | ⟨n, hn, hpos, hmod, hset⟩
    · rw [hsame]
      exact ⟨le_rfl, hsize⟩
    · have hlt : ((x.tasks p).sz : Int) + n.toInt < 2147483648 := hok n hn hpos hmod
      rw [hset]
      show (x.tasks p).sz ≤ (((x.tasks p).sz + n.toInt) % 4294967296).toNat ∧
        (((x.tasks p).sz + n.toInt) % 4294967296).toNat ≤ 2147483648
      omega
  generalize (sysMmap (x.tasks p).sz esp mem).2 = newsz at hmono ⊢
  have hpages := Xv6.pages_mono hmono.1
  refine ⟨hmono.2, fun v hv => ?_, fun v hv => ?_⟩
  · rcases Finset.mem_union.mp hv with hold | hnew
    · exact Nat.lt_of_lt_of_le (hf.below v hold) hpages
    · exact (Finset.mem_Ico.mp hnew).2
  · rw [hf.entry v hv, Finset.mem_union, Finset.mem_Ico]
    constructor
    · rintro ⟨hlt, hnot⟩
      exact ⟨by omega, fun hin => hin.elim hnot fun hge => by omega⟩
    · rintro ⟨hlt, hnot⟩
      exact ⟨by omega, fun habs => hnot (.inl habs)⟩

theorem Accounted.access {addr : Nat} {write : Bool} {r : Int} (h : Accounted x u)
    (hw : ∀ d v e, x.mem.dirs p = some d → v < userPages → d.entry v = some e → e.w = true)
    (hok : Fitting x (.access p addr write)) :
    Allows (fun _ => True) (access img p addr write x) fun r' =>
      Accounted r'.2 (note x u (.access p addr write, r)) := by
  have hnote : note x u (.access p addr write, r) =
      Function.update u p ((u p).erase (addr / pgsize)) := rfl
  rw [hnote]
  cases hd : x.mem.dirs p with
  | none =>
    rw [Lazy.access, Counts.State.dir, hd]
    exact .stop trivial
  | some d =>
    have hf := h p d hd
    have hlt := Xv6.page_lt_pages hok.1
    have hv := Nat.lt_of_lt_of_le hlt (Xv6.pages_le hf.size)
    rcases access_fitting img hd hf (hw d · · hd) hok with
      ⟨hne, hrun⟩ | ⟨hnone, page, d', k', hrun, hentry⟩
    · rw [hrun, hf.erase_present hv hne, Function.update_eq_self]
      exact .ok h
    · rw [hrun]
      have hb : Beside x p (some d') k' { x with mem := x.mem.setDir p (some d') k' } :=
        ⟨rfl, fun _ _ => rfl⟩
      refine .ok (h.beside hb (fun q hq => Function.update_of_ne hq _ _) fun d₁ hd₁ => ?_)
      rw [Function.update_self, ← Option.some.inj hd₁]
      exact hf.mapped hlt hentry

/-- `exit` changes no size. -/
theorem Accounted.exit (h : Accounted x u) : Allows (fun _ => True) (exit p x) fun r =>
    Accounted r.2 u := by
  rw [Lazy.exit]
  split
  case isTrue => exact .stop trivial
  case isFalse =>
    refine .ok (h.same rfl fun q => ?_)
    show (Function.update x.tasks p _ q).sz = _
    by_cases hq : q = p
    · rw [hq, Function.update_self]
    · rw [Function.update_of_ne hq]

theorem Accounted.freevm (h : Accounted x u) :
    Allows (fun _ => True) (run img x (.freevm p)) fun r => Accounted r.2 u := by
  refine with_dir fun d _ => .skip fun k => .ok ?_
  have hb : Beside x p none k (Kernel.setTask { x with mem := x.mem.setDir p none k } p
      { x.tasks p with state := .unused }) := ⟨rfl, fun _ hq => Function.update_of_ne hq _ _⟩
  exact h.beside hb (fun _ _ => rfl) fun d hd => by cases hd

theorem Accounted.kalloc (h : Accounted x u) :
    Allows (fun _ => True) (run img x .kalloc) fun r => Accounted r.2 u := by
  show Allows _ (Plain.kalloc x.mem.kmem >>= _) _
  refine .skip fun ⟨r, k⟩ => ?_
  cases r with
  | none => exact .ok (h.same rfl fun _ => rfl)
  | some page => exact .ok (h.same rfl fun _ => rfl)

/-- **Every call** that fits keeps the accounts. -/
theorem Accounted.step {call : Call} {r : Int} (h : Accounted x u)
    (hgood : Good img pool hvalid x)
    (hw : ∀ p d v e, x.mem.dirs p = some d → v < userPages → d.entry v = some e → e.w = true)
    (hallowed : Allowed x call) (hok : Fitting x call) (hrun : run img x call = .ok (r, x')) :
    Accounted x' (note x u (call, r)) := by
  cases call with
  | fork p =>
    obtain ⟨d, hd⟩ := Option.ne_none_iff_exists'.mp (hgood.runnable p hallowed)
    exact (h.fork hgood hd).of_ok hrun
  | exec p phs args => exact (h.exec hgood).of_ok hrun
  | sbrk p esp mem => exact (h.sbrk hgood hok).of_ok hrun
  | mmap p esp mem =>
    obtain ⟨-, rfl⟩ := Prod.mk.inj (Except.ok.inj hrun)
    exact h.mmap hok
  | access p addr write => exact (h.access (hw p) hok).of_ok hrun
  | exit p => exact h.exit.of_ok hrun
  | freevm p => exact h.freevm.of_ok hrun
  | kalloc => exact h.kalloc.of_ok hrun
  | kfree page =>
    have hfree : Allows (fun _ => True) (run img x (.kfree page)) fun r => Accounted r.2 u :=
      .skip fun k => .ok (h.same rfl fun _ => rfl)
    exact hfree.of_ok hrun
  | write mem =>
    obtain ⟨-, rfl⟩ := Prod.mk.inj (Except.ok.inj hrun)
    exact h.same rfl fun _ => rfl

/-! ## Every run -/

/-- Calls that fit keep away from kernel memory. -/
theorem Accounted.guard {call : Call} (h : Accounted x u) (hgood : Good img pool hvalid x)
    (hallowed : Allowed x call) (hok : Fitting x call) : Guard x call := by
  have hsize : ∀ {p}, (x.tasks p).state = .runnable → (x.tasks p).sz ≤ kernbase := by
    intro p hp
    obtain ⟨d, hd⟩ := Option.ne_none_iff_exists'.mp (hgood.runnable p hp)
    exact (h p d hd).size
  cases call with
  | sbrk p esp mem => exact fun _ _ _ => hsize hallowed
  | access p addr write =>
    intro hge
    have hle := hsize hallowed
    have hlt := hok.1
    omega
  | fork | exec | mmap | exit | freevm | kalloc | kfree | write => trivial

/-- **In every run** of calls that fit, the accounts are right. -/
theorem reach_accounted {k₀ : Kmem} {s : Kernel × Record} (hboot : Booted img k₀)
    (hfull : 68 ≤ k₀.freelist.length) (hr : (accounted img k₀).Reach s) :
    (system img k₀).Reach s.1 ∧
      Good img k₀.freelist.toFinset (Counts.boot_valid hboot) s.1 ∧ Accounted s.1 s.2 := by
  refine hr.invariant (I := fun s => (system img k₀).Reach s.1 ∧
    Good img k₀.freelist.toFinset (Counts.boot_valid hboot) s.1 ∧ Accounted s.1 s.2) ?_ ?_
  · rintro ⟨x, u⟩ ⟨hstart, rfl⟩
    have hfirst := (userinit_spec hboot).of_ok hstart
    refine ⟨.start hstart, hfirst.good, fun p d hd => ?_⟩
    have hd : x.mem.dirs p = some d := hd
    by_cases hp : p = Ptable.initproc
    · obtain ⟨d', hd', hnone, hpage⟩ := hfirst.dir
      rw [hp, hd'] at hd
      obtain rfl := Option.some.inj hd
      have hone : pages pgsize = 1 := rfl
      show Filled d' (x.tasks p).sz ∅
      rw [hp, hfirst.initproc.2]
      refine ⟨by decide, fun v hv => absurd hv (Finset.notMem_empty v), fun v hv => ?_⟩
      rw [hone]
      by_cases hv0 : v = 0
      · rw [hv0]
        exact iff_of_true (hpage hfull).1 ⟨Nat.one_pos, Finset.notMem_empty 0⟩
      · exact iff_of_false (not_not.mpr (hnone v hv hv0)) fun hlt => by omega
    · rw [(hfirst.others p hp).2] at hd
      cases hd
  · rintro ⟨x, u⟩ ⟨call, r⟩ ⟨x', u'⟩ ⟨hreach, hgood, h⟩ ⟨hok, ⟨hallowed, hrun⟩, hu⟩
    obtain rfl : u' = note x u (call, r) := hu
    have hguard := h.guard hgood hallowed hok
    refine ⟨.step hreach ⟨hallowed, hrun⟩, ((hgood.step hallowed hguard).of_ok hrun).1, ?_⟩
    exact h.step hgood (fun p d v e hd hv he => reach_writable hreach hd hv he) hallowed hok hrun

/-- The difference is the record: the pages that are promised and not there. -/
theorem Accounted.numpp_eq (h : Accounted x u) (hd : x.mem.dirs p = some d) :
    ∃ pp, numpp x p = some pp ∧ numvp (x.tasks p).sz = pp + (u p).card := by
  rw [numpp, hd]
  exact (h p d hd).numPhyPage_eq

/-- A size that fits is not changed by `toInt`. -/
theorem toInt_size {sz : Nat} (h : sz < kernbase) : toInt sz = sz := if_pos h

/-- `mmap` of `m` pages. -/
theorem sysMmap_fitting {sz esp m : Nat} {mem : Words} {n : BitVec 32}
    (hn : argint sz mem esp 0 = some n) (hm : n.toInt = m * pgsize) (hpos : 0 < m)
    (hlt : sz + n.toInt < kernbase) :
    sysMmap sz esp mem = (↑sz, sz + m * pgsize) := by
  have hm : n.toInt = m * 4096 := hm
  have hlt : (sz : Int) + n.toInt < 2147483648 := hlt
  have hok : ¬ (n.toInt ≤ 0 ∨ n.toInt % pgsize ≠ 0) := by
    show ¬ (n.toInt ≤ 0 ∨ n.toInt % 4096 ≠ 0)
    omega
  have hsize : uint (sz + n.toInt) = sz + m * 4096 := by
    show (((sz : Int) + n.toInt) % 4294967296).toNat = sz + m * 4096
    omega
  rw [sysMmap, hn]
  show (if _ then _ else _) = _
  have hsz : sz < 2147483648 := by omega
  rw [if_neg hok, hsize, toInt_size hsz]
  rfl

theorem pages_add (sz m : Nat) : pages (sz + m * pgsize) = pages sz + m := by
  show (sz + m * 4096 + 4096 - 1) / 4096 = (sz + 4096 - 1) / 4096 + m
  omega

/-- **`sbrk`** with memory for what it maps. -/
theorem sbrk_fitting {esp : Nat} {mem : Words} {n : BitVec 32} (hgood : Good img pool hvalid x)
    (h : Accounted x u) (hd : x.mem.dirs p = some d)
    (hn : argint (x.tasks p).sz mem esp 0 = some n) (hpos : 0 < n.toInt)
    (hok : Fitting x (.sbrk p esp mem)) :
    ∃ x', run img x (.sbrk p esp mem) = .ok ((x.tasks p).sz, x') ∧
      (x'.tasks p).sz = uint ((x.tasks p).sz + n.toInt) ∧ x'.mem.dirs p ≠ none := by
  obtain ⟨-, hlt, hneed⟩ := hok n d hn hd
  have hf := h p d hd
  have hlt : ((x.tasks p).sz : Int) + n.toInt < 2147483648 := hlt
  have hnew : (uint ((x.tasks p).sz + n.toInt) : Int) = (x.tasks p).sz + n.toInt := by
    show (((((x.tasks p).sz : Int) + n.toInt) % 4294967296).toNat : Int) = _
    omega
  have hsz : toInt (x.tasks p).sz = (x.tasks p).sz := toInt_size (by
    show (x.tasks p).sz < 2147483648
    omega)
  show ∃ x', sysSbrk img p esp mem x = _ ∧ _
  rw [sysSbrk, hn, Counts.dir_eq hd]
  show ∃ x', (growproc img d (x.tasks p).sz n.toInt x.mem.kmem >>= _) = _ ∧ _
  rw [growproc, if_pos hpos]
  generalize uint ((x.tasks p).sz + n.toInt) = newsz at *
  have hle : (x.tasks p).sz ≤ newsz := by omega
  have hmax : newsz < kernbase := by
    show newsz < 2147483648
    omega
  have huser : pages newsz ≤ userPages := Xv6.pages_le (Nat.le_of_lt hmax)
  obtain ⟨⟨r, d', k⟩, hrun, -, hcost⟩ := ((allocuvm_spec (A := plain)
    (E := fun _ => False) hmax hle (fun v hv hlt hne => hne (hf.above (by omega) hv))
    (hgood.live hd)).and (allocuvm_cost hmax hle)).exists_ok
  have hcost : (r = newsz ∧ _) ∨ room d x.mem.kmem < pages newsz - pages (x.tasks p).sz + (d.tabs ∪
    span (pages (x.tasks p).sz) (pages newsz - pages (x.tasks p).sz)).card := hcost
  have hroom : ¬ room d x.mem.kmem < pages newsz - pages (x.tasks p).sz + (d.tabs ∪
      span (pages (x.tasks p).sz) (pages newsz - pages (x.tasks p).sz)).card := by
    rw [growNeed] at hneed
    rw [room, Finset.union_comm, ← Finset.card_sdiff_add_card]
    omega
  obtain ⟨rfl, -⟩ := hcost.resolve_right hroom
  have hne : r ≠ 0 := by omega
  refine ⟨resize x p r d' k, ?_, by rw [resize_task], ?_⟩
  · rw [hrun]
    show (if r = 0 then _ else _ : Except String (Int × Nat × PgDir × Kmem)) >>= _ = _
    rw [if_neg hne]
    show Except.ok (toInt (x.tasks p).sz, resize x p r d' k) = _
    rw [hsz]
  · show Function.update x.mem.dirs p (some d') p ≠ none
    rw [Function.update_self]
    exact fun hno => by cases hno

/-! ## What a call adds -/

section Raises

variable {pp : Nat} (hd : x.mem.dirs p = some d)
  (hpp : numvp (x.tasks p).sz = pp + (u p).card)

include hd hpp

/-- **`mmap`** adds pages that are not there. -/
theorem Accounted.mmap_raises {esp m : Nat} {mem : Words} {n : BitVec 32} (h : Accounted x u)
    (hn : argint (x.tasks p).sz mem esp 0 = some n) (hm : n.toInt = m * pgsize) (hpos : 0 < m)
    (hok : Fitting x (.mmap p esp mem)) :
    ∃ x', run img x (.mmap p esp mem) = .ok ((x.tasks p).sz, x') ∧
      numvp (x'.tasks p).sz = numvp (x.tasks p).sz + m ∧ numpp x' p = some pp := by
  have hsize := (h p d hd).size
  have hlt : ((x.tasks p).sz : Int) + n.toInt < kernbase := by
    refine hok n hn ?_ ?_
    · have hm : n.toInt = m * 4096 := hm
      omega
    · rw [hm]
      exact Int.mul_emod_left m pgsize
  have hres := sysMmap_fitting hn hm hpos hlt
  have h' := h.mmap (r := (x.tasks p).sz) hok
  rw [hres] at h'
  generalize hx : x.setTask p { x.tasks p with sz := (x.tasks p).sz + m * pgsize } = x' at h'
  have hsz : (x'.tasks p).sz = (x.tasks p).sz + m * pgsize := by rw [← hx, setTask_task]
  have hd' : x'.mem.dirs p = some d := by
    rw [← hx]
    exact hd
  obtain ⟨pp', hpp', hdiff⟩ := h'.numpp_eq hd'
  have hf' := (h' p d hd').size
  have hraise : numvp (x'.tasks p).sz = numvp (x.tasks p).sz + m := by
    rw [numvp, numvp, pgroundup_eq hf', pgroundup_eq hsize, hsz, pages_add]
  have hcard : (note x u (.mmap p esp mem, (x.tasks p).sz) p).card = (u p).card + m := by
    show (Function.update u p _ p).card = _
    rw [Function.update_self, hres, pages_add, Finset.card_union_of_disjoint, Nat.card_Ico,
      Nat.add_sub_cancel_left]
    refine Finset.disjoint_left.mpr fun v hv hin => ?_
    exact absurd ((h p d hd).below v hv) (Nat.not_lt_of_le (Finset.mem_Ico.mp hin).1)
  refine ⟨x', ?_, hraise, ?_⟩
  · show Except.ok ((sysMmap (x.tasks p).sz esp mem).1,
      x.setTask p { x.tasks p with sz := (sysMmap (x.tasks p).sz esp mem).2 }) = _
    rw [hres, hx]
  · rw [hpp']
    refine congrArg some ?_
    omega

/-- **An access** maps one page, or changes nothing. -/
theorem Accounted.access_raises {addr : Nat} {write : Bool} (h : Accounted x u)
    (hw : ∀ d v e, x.mem.dirs p = some d → v < userPages → d.entry v = some e → e.w = true)
    (hok : Fitting x (.access p addr write)) :
    ∃ x', run img x (.access p addr write) = .ok (0, x') ∧
      (d.entry (addr / pgsize) ≠ none → x' = x) ∧
      (d.entry (addr / pgsize) = none →
        numvp (x'.tasks p).sz = numvp (x.tasks p).sz ∧ numpp x' p = some (pp + 1)) := by
  have hf := h p d hd
  rcases access_fitting img hd hf (hw d · · hd) hok with
    ⟨hne, hrun⟩ | ⟨hnone, page, d', k', hrun, -⟩
  · exact ⟨x, hrun, fun _ => rfl, fun hnone => absurd hnone hne⟩
  · refine ⟨_, hrun, fun hne => absurd hnone hne, fun _ => ⟨rfl, ?_⟩⟩
    have h' := (h.access (r := 0) hw hok).of_ok hrun
    obtain ⟨pp', hpp', hdiff⟩ := h'.numpp_eq (Function.update_self ..)
    rw [hpp']
    have hdiff : numvp (x.tasks p).sz = pp' +
        (Function.update u p ((u p).erase (addr / pgsize)) p).card := hdiff
    have hlt := Xv6.page_lt_pages hok.1
    have hin : addr / pgsize ∈ u p := by
      by_contra hnot
      exact (hf.entry _ (Nat.lt_of_lt_of_le hlt (Xv6.pages_le hf.size))).mpr ⟨hlt, hnot⟩ hnone
    have hcard := Finset.card_erase_add_one hin
    rw [Function.update_self] at hdiff
    refine congrArg some ?_
    omega

/-- **A positive `sbrk`** adds pages that are there. -/
theorem Accounted.sbrk_raises {esp : Nat} {mem : Words} {n : BitVec 32} (h : Accounted x u)
    (hgood : Good img pool hvalid x) (hn : argint (x.tasks p).sz mem esp 0 = some n)
    (hpos : 0 < n.toInt) (hok : Fitting x (.sbrk p esp mem)) :
    ∃ x' m, run img x (.sbrk p esp mem) = .ok ((x.tasks p).sz, x') ∧
      numvp (x'.tasks p).sz = numvp (x.tasks p).sz + m ∧ numpp x' p = some (pp + m) := by
  obtain ⟨x', hrun, hsz, hdir⟩ := sbrk_fitting hgood h hd hn hpos hok
  obtain ⟨d', hd'⟩ := Option.ne_none_iff_exists'.mp hdir
  have hf := h p d hd
  have hlt : ((x.tasks p).sz : Int) + n.toInt < 2147483648 := (hok n d hn hd).2.1
  have hle : (x.tasks p).sz ≤ uint ((x.tasks p).sz + n.toInt) := by
    show _ ≤ ((((x.tasks p).sz : Int) + n.toInt) % 4294967296).toNat
    omega
  have h' : Accounted x' (note x u (.sbrk p esp mem, (x.tasks p).sz)) :=
    (h.sbrk hgood hok).of_ok hrun
  obtain ⟨pp', hpp', hdiff⟩ := h'.numpp_eq hd'
  have hsame : note x u (.sbrk p esp mem, (x.tasks p).sz) p = u p := by
    rw [note_sbrk hn, Function.update_self, hf.filter_grown hle]
  have hf' := (h' p d' hd').size
  have hmono := Xv6.pages_mono hle
  rw [hsame] at hdiff
  have hgrow : numvp (x.tasks p).sz ≤ numvp (x'.tasks p).sz := by
    rw [numvp, numvp, pgroundup_eq hf.size, pgroundup_eq hf', hsz]
    exact hmono
  refine ⟨x', numvp (x'.tasks p).sz - numvp (x.tasks p).sz, hrun, by omega, ?_⟩
  rw [hpp']
  refine congrArg some ?_
  omega

end Raises

/-- **Page accounts.**  In every state of a run of calls that fit, when there was memory for the first
    process: `numpp` is at most `numvp`, and the difference is the number of pages below the size that
    `mmap` has added and that were not touched since.  A further `mmap` of `m` pages raises `numvp` by
    `m` and leaves `numpp`; an access to an absent page raises `numpp` by 1, and any other changes
    nothing; a positive `sbrk` raises both alike. -/
theorem page_accounts {k₀ : Kmem} (hboot : Booted img k₀) (hfull : 68 ≤ k₀.freelist.length)
    (hr : (accounted img k₀).Reach (x, u)) (hrun : (x.tasks p).state = .runnable) :
    ∃ pp, numpp x p = some pp ∧ pp ≤ numvp (x.tasks p).sz ∧
      numvp (x.tasks p).sz - pp = (u p).card ∧ (∀ v ∈ u p, v < pages (x.tasks p).sz) ∧
      (∀ esp mem n m, argint (x.tasks p).sz mem esp 0 = some n → n.toInt = (m : Nat) * pgsize →
        0 < m → Fitting x (.mmap p esp mem) →
        ∃ x', run img x (.mmap p esp mem) = .ok ((x.tasks p).sz, x') ∧
          numvp (x'.tasks p).sz = numvp (x.tasks p).sz + m ∧ numpp x' p = some pp) ∧
      (∀ addr write d, x.mem.dirs p = some d → Fitting x (.access p addr write) →
        ∃ x', run img x (.access p addr write) = .ok (0, x') ∧
          (d.entry (addr / pgsize) ≠ none → x' = x) ∧
          (d.entry (addr / pgsize) = none →
            numvp (x'.tasks p).sz = numvp (x.tasks p).sz ∧ numpp x' p = some (pp + 1))) ∧
      ∀ esp mem n, argint (x.tasks p).sz mem esp 0 = some n → 0 < n.toInt →
        Fitting x (.sbrk p esp mem) →
        ∃ x' m, run img x (.sbrk p esp mem) = .ok ((x.tasks p).sz, x') ∧
          numvp (x'.tasks p).sz = numvp (x.tasks p).sz + m ∧ numpp x' p = some (pp + m) := by
  obtain ⟨hreach, hgood, h⟩ := reach_accounted hboot hfull hr
  have hgood : Good img k₀.freelist.toFinset (Counts.boot_valid hboot) x := hgood
  have h : Accounted x u := h
  obtain ⟨d, hd⟩ := Option.ne_none_iff_exists'.mp (hgood.runnable p hrun)
  obtain ⟨pp, hpp, hdiff⟩ := h.numpp_eq hd
  refine ⟨pp, hpp, by omega, by omega, (h p d hd).below, ?_, ?_, ?_⟩
  · exact fun esp mem n m hn hm hpos hok => h.mmap_raises hd hdiff hn hm hpos hok
  · intro addr write d' hd' hok
    exact h.access_raises hd' hdiff (fun d v e hd hv he => reach_writable hreach hd hv he) hok
  · exact fun esp mem n hn hpos hok => h.sbrk_raises hd hdiff hgood hn hpos hok

end Accounts

/-- The first process asks for a page: it has been given two, and has one. -/
theorem page_accounts_first : ∃ (k₀ : Kmem) (x : Kernel) (u : Record),
    (accounted bootImage k₀).Reach (x, u) ∧ u Ptable.initproc = {1} ∧
    numvp (x.tasks Ptable.initproc).sz = 2 ∧ numpp x Ptable.initproc = some 1 := by
  obtain ⟨k₀, hboot, x₀, h0, hfirst, hlen⟩ := first_exists
  have hfits : Fitting x₀ (.mmap Ptable.initproc 0 fun _ => 4096) := by
    intro n hn _ _
    have hint : argint (x₀.tasks Ptable.initproc).sz (fun _ => 4096) 0 0 = some 4096 := by
      rw [hfirst.initproc.2]
      decide
    rw [← Option.some.inj (hint.symm.trans hn), hfirst.initproc.2]
    decide
  have hstart : (accounted bootImage k₀).Reach (x₀, fun _ => ∅) := .start ⟨h0, rfl⟩
  have hr : (accounted bootImage k₀).Reach
      (x₀.setTask Ptable.initproc { x₀.tasks Ptable.initproc with sz := 8192 },
        note x₀ (fun _ => ∅) (.mmap Ptable.initproc 0 fun _ => 4096, 4096)) :=
    .step hstart ⟨hfits, hfirst.mmap, rfl⟩
  have hrecord : note x₀ (fun _ => ∅) (.mmap Ptable.initproc 0 fun _ => 4096, 4096)
      Ptable.initproc = {1} := by
    show Function.update (fun _ : Slot => (∅ : Finset Nat)) Ptable.initproc (∅ ∪
      Finset.Ico (pages (x₀.tasks Ptable.initproc).sz)
        (pages (sysMmap (x₀.tasks Ptable.initproc).sz 0 fun _ => 4096).2)) Ptable.initproc = _
    rw [Function.update_self, hfirst.initproc.2]
    decide
  obtain ⟨pp, hpp, hle, hdiff, -⟩ := page_accounts hboot (by omega) hr
    (by rw [setTask_task]; exact hfirst.initproc.1)
  have hvirt : numvp 8192 = 2 := by decide
  rw [setTask_task, hvirt] at hle hdiff
  rw [hrecord, Finset.card_singleton] at hdiff
  refine ⟨k₀, _, _, hr, hrecord, by rw [setTask_task, hvirt], ?_⟩
  rw [hpp]
  exact congrArg some (by omega)

end OsCodes.Paging.Lazy
