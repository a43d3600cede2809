/-
  The two page allocators, with what they do when no page is free.

  `kalloc.c` of xv6-public(1) counts references, that of xv6-public does not; the rest of the two
  kernels uses either in the same way, so it is modelled over an `Allocator`.  An error is the text
  of a panic.  `Books` is what an allocator has to keep: a ledger of the pages that were free when
  `kinit2` returned.

  1. `plain` and `counted` are the two allocators; what differs is what `kfree` does with a page
     that still has references, and `incrementRefCount`;
  2. `NumFreePages` walks the free list and compares addresses as `int`s; all kernel addresses are
     negative, so it counts every page (`numFreeLoop_eq`);
  3. booting is followed from `kinit1` to `kinit2`, with the pages that the kernel takes in
     between and that nobody counts (`Booted.filling`, `boot_exists`);
  4. `Books` is the interface to everything above: `Acct k T` is kept by `kalloc` and `kfree` as
     the references `T` change, and it contains a `Ledger`.  `Plain.books` and `Counted.books` are
     its two instances, and the modules about page tables use nothing else of an allocator.
-/
import OsCodes.Lib.Ledger
import OsCodes.Xv6.Kalloc

namespace OsCodes.Paging

open Refcount Xv6

/-! ## Allocators -/

/-- `kalloc` and `kfree`.  A page that `kalloc` returns was the first of the free list. -/
structure Allocator where
  kalloc : Kmem → Except String (Option Nat × Kmem)
  kfree : Image → Nat → Kmem → Except String Kmem
  pops : ∀ {k k' : Kmem} {r : Option Nat}, kalloc k = .ok (r, k') →
    k.freelist = r.toList ++ k'.freelist ∧ (r = none → k.freelist = []) ∧ k'.mem = k.mem

namespace Plain

/-- `kalloc` of xv6-public. -/
def kalloc (k : Kmem) : Except String (Option Nat × Kmem) :=
  match k.freelist with
  | [] => .ok (none, k)
  | r :: next => .ok (some r, { k with freelist := next })

/-- `kfree` of xv6-public. -/
def kfree (img : Image) (v : Nat) (k : Kmem) : Except String Kmem :=
  if v < img.endPage ∨ frames ≤ v then .error "kfree"
  else
    -- filled with junk
    let k := { k with mem := Function.update k.mem v fun _ => 1 }
    .ok { k with freelist := v :: k.freelist }

theorem kalloc_pops {k k' : Kmem} {r : Option Nat} (h : kalloc k = .ok (r, k')) :
    k.freelist = r.toList ++ k'.freelist ∧ (r = none → k.freelist = []) ∧ k'.mem = k.mem := by
  unfold kalloc at h
  split at h
  case h_1 hfree =>
    obtain ⟨rfl, rfl⟩ := Prod.mk.inj (Except.ok.inj h)
    exact ⟨rfl, fun _ => hfree, rfl⟩
  case h_2 p next hfree =>
    obtain ⟨rfl, rfl⟩ := Prod.mk.inj (Except.ok.inj h)
    exact ⟨hfree, fun hnone => (by cases hnone), rfl⟩

end Plain

/-- The allocator of xv6-public: `kfree` puts the page on the list at once. -/
def plain : Allocator := ⟨Plain.kalloc, Plain.kfree, Plain.kalloc_pops⟩

namespace Counted

/-- `kalloc` of xv6-public(1). -/
def kalloc (k : Kmem) : Except String (Option Nat × Kmem) :=
  match k.freelist with
  | [] => .ok (none, k)
  | r :: next =>
    if frames ≤ r then .error "kalloc: refcount"
    else .ok (some r, { k with freelist := next, count := Function.update k.count r 1 })

/-- `kfree` of xv6-public(1). -/
def kfree (img : Image) (v : Nat) (k : Kmem) : Except String Kmem :=
  if v < img.endPage ∨ frames ≤ v then .error "kfree"
  else if frames ≤ v then .error "kfree: refcount"
  else
    let k := { k with count := Function.update k.count v (k.count v - 1) }
    if k.count v < 0 then .error "kfree: refcount < 0"
    else if k.count v ≠ 0 then .ok k
    else
      -- filled with junk
      let k := { k with mem := Function.update k.mem v fun _ => 1 }
      .ok { k with freelist := v :: k.freelist }

/-- `incrementRefCount`, which panics for a page that nobody refers to. -/
def incrementRefCount (img : Image) (v : Nat) (k : Kmem) : Except String Kmem :=
  if v < img.endPage ∨ frames ≤ v then .error "incrementRefCount"
  else if k.count v = 0 then .error "incrementRefCount: refcount == 0"
  else .ok { k with count := Function.update k.count v (k.count v + 1) }

theorem kalloc_pops {k k' : Kmem} {r : Option Nat} (h : kalloc k = .ok (r, k')) :
    k.freelist = r.toList ++ k'.freelist ∧ (r = none → k.freelist = []) ∧ k'.mem = k.mem := by
  unfold kalloc at h
  split at h
  case h_1 hfree =>
    obtain ⟨rfl, rfl⟩ := Prod.mk.inj (Except.ok.inj h)
    exact ⟨rfl, fun _ => hfree, rfl⟩
  case h_2 p next hfree =>
    split at h
    case isTrue => cases h
    case isFalse =>
      obtain ⟨rfl, rfl⟩ := Prod.mk.inj (Except.ok.inj h)
      exact ⟨hfree, fun hnone => (by cases hnone), rfl⟩

end Counted

/-- The allocator of xv6-public(1): `kfree` drops a reference, and the last one puts the page on the
    list. -/
def counted : Allocator := ⟨Counted.kalloc, Counted.kfree, Counted.kalloc_pops⟩

/-! ## Counting the free pages -/

/-- Conversion of a word to `int`. -/
def toInt (w : Nat) : Int := if w < 2147483648 then w else (w : Int) - 4294967296

/-- `P2V` of a page. -/
def p2v (p : Nat) : Nat := kernbase + p * pgsize

/-- The loop of `NumFreePages` at a page of the free list: it stops early at an address that is
    past `PHYSTOP` as an `int`. -/
def numFreeLoop : List Nat → Nat → Nat
  | [], num => num
  | [_], num => num + 1
  | _ :: r :: next, num =>
    if toInt (p2v r) ≥ phystop then num + 1 else numFreeLoop (r :: next) (num + 1)

/-- `NumFreePages`. -/
def NumFreePages (k : Kmem) : Nat := numFreeLoop k.freelist 0

/-- Kernel addresses are negative as an `int`, so the loop does not stop early. -/
theorem numFreeLoop_eq : ∀ {free : List Nat} {num : Nat}, (∀ p ∈ free, p < frames) →
    numFreeLoop free num = num + free.length
  | [], _, _ => rfl
  | [_], _, _ => rfl
  | _ :: r :: next, num, h => by
    have hlt : r < 57344 := h r (List.mem_cons_of_mem _ List.mem_cons_self)
    have haddr : p2v r = 2147483648 + r * 4096 := rfl
    have hneg : ¬ toInt (p2v r) ≥ phystop := by
      have hphys : phystop = 234881024 := rfl
      rw [toInt, haddr, if_neg (by omega), hphys]
      omega
    rw [numFreeLoop, if_neg hneg, numFreeLoop_eq fun p hp => h p (List.mem_cons_of_mem _ hp)]
    simp only [List.length_cons]
    omega

/-! ## Booting -/

/-- `freerange`, from page `a` on, with `n` pages to go.  No references are counted yet. -/
def freerange (img : Image) (a : Nat) : Nat → Kmem → Except String Kmem
  | 0, k => .ok k
  | n + 1, k => do
    let k ← Plain.kfree img a k
    freerange img (a + 1) n k

/-- The page at 4 MB, up to which `entrypgdir` maps. -/
def entryPages : Nat := 1024

/-- `kinit1`. -/
def kinit1 (img : Image) (k : Kmem) : Except String Kmem :=
  freerange img img.endPage (entryPages - img.endPage) { k with count := fun _ => 0 }

/-- `kinit2`. -/
def kinit2 (img : Image) (k : Kmem) : Except String Kmem :=
  freerange img entryPages (frames - entryPages) k

/-- Pages taken before `kinit2`, for the kernel's own page tables and the stacks of the processors;
    these are not counted. -/
def takeEarly : Nat → Kmem → Except String Kmem
  | 0, k => .ok k
  | n + 1, k => do
    let (_, k) ← Plain.kalloc k
    takeEarly n k

/-- The memory when `kinit2` returns: some pages that `kinit1` put on the list are taken by then. -/
def Booted (img : Image) (k : Kmem) : Prop :=
  ∃ k₀ k₁ k₂ n, k₀.freelist = [] ∧ kinit1 img k₀ = .ok k₁ ∧ takeEarly n k₁ = .ok k₂ ∧
    kinit2 img k₂ = .ok k

/-- While pages below `a` are given to the free list. -/
structure Filling (img : Image) (a : Nat) (k : Kmem) : Prop where
  nodup : k.freelist.Nodup
  range : ∀ p ∈ k.freelist, img.endPage ≤ p ∧ p < frames ∧ p < a
  count : ∀ p, k.count p = 0

theorem Filling.freerange {img : Image} : ∀ {n a : Nat} {k k' : Kmem}, Filling img a k →
    freerange img a n k = .ok k' → Filling img (a + n) k' := by
  intro n
  induction n with
  | zero =>
    intro a k k' h hrun
    obtain rfl := Except.ok.inj hrun
    exact h
  | succ n ih =>
    intro a k k' h hrun
    rw [Paging.freerange, Plain.kfree] at hrun
    split at hrun
    case isTrue => cases hrun
    case isFalse hvalid =>
      have hnot : a ∉ k.freelist := fun hin => Nat.lt_irrefl a (h.range a hin).2.2
      have hrun : Paging.freerange img (a + 1) n { k with
          mem := Function.update k.mem a fun _ => 1, freelist := a :: k.freelist } = .ok k' := hrun
      rw [← Nat.add_assoc, Nat.add_right_comm]
      apply ih _ hrun
      refine ⟨List.nodup_cons.mpr ⟨hnot, h.nodup⟩, fun p hp => ?_, h.count⟩
      cases List.mem_cons.mp hp with
      | inl heq =>
        rw [heq]
        omega
      | inr hin =>
        obtain ⟨hge, hlt, hbelow⟩ := h.range p hin
        exact ⟨hge, hlt, Nat.lt_succ_of_lt hbelow⟩

theorem Filling.takeEarly {img : Image} {a : Nat} : ∀ {n : Nat} {k k' : Kmem}, Filling img a k →
    takeEarly n k = .ok k' → Filling img a k' := by
  intro n
  induction n with
  | zero =>
    intro k k' h hrun
    obtain rfl := Except.ok.inj hrun
    exact h
  | succ n ih =>
    intro k k' h hrun
    rw [Paging.takeEarly, Plain.kalloc] at hrun
    split at hrun
    case h_1 => exact ih h hrun
    case h_2 p next hfree =>
      have hrun : Paging.takeEarly n { k with freelist := next } = .ok k' := hrun
      apply ih _ hrun
      refine ⟨?_, fun q hq => ?_, h.count⟩
      · have hnodup := h.nodup
        rw [hfree] at hnodup
        exact (List.nodup_cons.mp hnodup).2
      · refine h.range q ?_
        rw [hfree]
        exact List.mem_cons_of_mem p hq

/-- **After `kinit2`** the pages of the free list are valid and different, and all counts are 0. -/
theorem Booted.filling {img : Image} {k : Kmem} (h : Booted img k) : Filling img frames k := by
  obtain ⟨k₀, k₁, k₂, n, hfree, hfirst, hearly, hsecond⟩ := h
  have hnone : Filling img img.endPage { k₀ with count := fun _ => 0 } := by
    refine ⟨?_, fun p hp => ?_, fun _ => rfl⟩
    · show k₀.freelist.Nodup
      rw [hfree]
      exact List.nodup_nil
    · have hp : p ∈ k₀.freelist := hp
      rw [hfree] at hp
      cases hp
  have hmid : Filling img entryPages k₂ := by
    obtain ⟨hnodup, hrange, hcount⟩ := (hnone.freerange hfirst).takeEarly hearly
    refine ⟨hnodup, fun p hp => ?_, hcount⟩
    obtain ⟨hge, hlt, hbelow⟩ := hrange p hp
    exact ⟨hge, hlt, by omega⟩
  have hend := hmid.freerange hsecond
  have hall : entryPages + (frames - entryPages) = frames := rfl
  rw [hall] at hend
  exact hend

theorem freerange_ok {img : Image} : ∀ {n a : Nat} {k : Kmem}, img.endPage ≤ a →
    a + n ≤ frames → ∃ k', freerange img a n k = .ok k' ∧
      k'.freelist.length = k.freelist.length + n := by
  intro n
  induction n with
  | zero => exact fun {_ k} _ _ => ⟨k, rfl, rfl⟩
  | succ n ih =>
    intro a k ha hend
    obtain ⟨k', hrun, hlen⟩ := ih (a := a + 1) (k := { k with
      mem := Function.update k.mem a fun _ => 1, freelist := a :: k.freelist })
      (by omega) (by omega)
    refine ⟨k', ?_, ?_⟩
    · rw [freerange, Plain.kfree, if_neg (by omega)]
      exact hrun
    · rw [hlen, List.length_cons]
      omega

/-- **Booting succeeds** when the kernel ends below 4 MB: all memory after it is free. -/
theorem boot_exists (img : Image) (hend : img.endPage ≤ entryPages) :
    ∃ k, Booted img k ∧ k.freelist.length = frames - img.endPage := by
  have hentry : entryPages = 1024 := rfl
  have hframes := frames_eq
  obtain ⟨k₁, hfirst, hlen₁⟩ := freerange_ok (n := entryPages - img.endPage)
    (k := ⟨[], fun _ => 0, fun _ _ => 0⟩) (le_refl img.endPage) (by omega)
  obtain ⟨k₂, hsecond, hlen₂⟩ := freerange_ok (n := frames - entryPages) (k := k₁) hend (by omega)
  refine ⟨k₂, ⟨⟨[], fun _ => 0, fun _ _ => 0⟩, k₁, k₁, 0, rfl, hfirst, rfl, hsecond⟩, ?_⟩
  rw [hlen₂, hlen₁, List.length_nil]
  omega

/-- A kernel that ends at page 512. -/
def bootImage : Image := ⟨264, 512, by decide, by decide, by decide⟩

/-! ## Books -/

/-- What `kalloc` leaves: no page, and none was free; or one that nobody referred to, for an owner
    or a sharer. -/
def Taken (Acct : Kmem → Refs Nat → Prop) (k : Kmem) (T : Refs Nat) : Option Nat × Kmem → Prop
  | (none, k') => k' = k
  | (some p, k') => T.total p = 0 ∧ Acct k' (T + .owner p) ∧ Acct k' (T + .sharer p) ∧
      k'.mem = k.mem

/-- The books of an allocator: `Acct k T` says that `k` is right for the references `T`. -/
structure Books (A : Allocator) (img : Image) where
  pool : Finset Nat
  Acct : Kmem → Refs Nat → Prop
  valid : ∀ {p}, p ∈ pool → img.endPage ≤ p ∧ p < frames
  ledger : ∀ {k T}, Acct k T → Ledger pool k.freelist T.total
  apart : ∀ {k T}, Acct k T → T.Apart
  setMem : ∀ {k T} (mem : Nat → Page), Acct k T → Acct { k with mem := mem } T
  kalloc_spec : ∀ {E k T}, Acct k T → Allows E (A.kalloc k) (Taken Acct k T)
  kfree_spec : ∀ {E k T T' p}, Acct k T → 0 < T.total p →
    (∀ q, T'.total q + hit (some p) q = T.total q) → (∀ q, T'.own q ≤ T.own q) →
    (∀ q, T'.shared q ≤ T.shared q) → Allows E (A.kfree img p k) fun k' =>
      Acct k' T' ∧ ∀ q, 0 < T'.total q → k'.mem q = k.mem q

/-- A page that is still referred to is not the one whose last reference went. -/
theorem ne_of_last {T T' : Nat → Nat} {p q : Nat} (hT : ∀ q, T' q + hit (some p) q = T q)
    (hp : T p = 1) (hq : 0 < T' q) : q ≠ p := by
  intro hqp
  have hself := hT p
  rw [hit_self] at hself
  rw [hqp] at hq
  omega

section Books

variable (img : Image) (pool : Finset Nat) (hvalid : ∀ p ∈ pool, img.endPage ≤ p ∧ p < frames)

/-- In xv6-public no page has two references. -/
structure Plain.Acct (k : Kmem) (T : Refs Nat) : Prop where
  ledger : Ledger pool k.freelist T.total
  single : ∀ q, T.total q ≤ 1

variable {img pool} {E : String → Prop} {k : Kmem} {T T' : Refs Nat} {p : Nat}

theorem Plain.Acct.apart (h : Plain.Acct pool k T) : T.Apart := by
  intro q hq
  have hone := h.single q
  rw [Refs.total] at hone ⊢
  omega

/-- Only how often a page is referred to matters, not by whom. -/
theorem Plain.Acct.congr (h : Plain.Acct pool k T) (hT : ∀ q, T'.total q = T.total q) :
    Plain.Acct pool k T' := by
  have heq : T'.total = T.total := funext hT
  constructor
  · rw [heq]
    exact h.ledger
  · exact fun q => (hT q).trans_le (h.single q)

theorem Plain.kalloc_spec (h : Plain.Acct pool k T) :
    Allows E (Plain.kalloc k) (Taken (Plain.Acct pool) k T) := by
  unfold Plain.kalloc
  split
  case h_1 => exact .ok rfl
  case h_2 p next hfree =>
    have hledger := h.ledger
    rw [hfree] at hledger
    have hnew : ∀ T' : Refs Nat, (∀ q, T'.total q = T.total q + hit (some p) q) →
        Plain.Acct pool { k with freelist := next } T' := by
      intro T' hT
      obtain ⟨hzero, hledger'⟩ := hledger.alloc hT
      refine ⟨hledger', fun q => ?_⟩
      rw [hT]
      by_cases hqp : q = p
      · rw [hqp, hzero, hit_self]
      · rw [hit_ne hqp]
        exact h.single q
    refine .ok ⟨(hledger.alloc fun _ => rfl).1, hnew _ fun q => ?_, hnew _ fun q => ?_, rfl⟩
    · rw [Refs.total_add, Refs.total_owner]
    · rw [Refs.total_add, Refs.total_sharer]

theorem Plain.kfree_spec (hvalid : ∀ p ∈ pool, img.endPage ≤ p ∧ p < frames)
    (h : Plain.Acct pool k T) (hp : 0 < T.total p)
    (hT : ∀ q, T'.total q + hit (some p) q = T.total q) : Allows E (Plain.kfree img p k) fun k' =>
      Plain.Acct pool k' T' ∧ ∀ q, 0 < T'.total q → k'.mem q = k.mem q := by
  have hone : T.total p = 1 := Nat.le_antisymm (h.single p) hp
  have hin := hvalid p (h.ledger.used p hp)
  rw [Plain.kfree, if_neg (by omega)]
  refine .ok ⟨⟨h.ledger.release hone hT, fun q => ?_⟩, fun q hq =>
    Function.update_of_ne (ne_of_last hT hone hq) _ _⟩
  exact (Nat.le_of_add_right_le (hT q).le).trans (h.single q)

variable (img pool)

/-- **The books of xv6-public.** -/
def Plain.books : Books plain img where
  pool := pool
  Acct := Plain.Acct pool
  valid hp := hvalid _ hp
  ledger h := h.ledger
  apart h := h.apart
  setMem _ h := ⟨h.ledger, h.single⟩
  kalloc_spec h := Plain.kalloc_spec h
  kfree_spec h hp hT _ _ := Plain.kfree_spec hvalid h hp hT

/-- In xv6-public(1) the count of a page is the number of its references. -/
structure Counted.Acct (k : Kmem) (T : Refs Nat) : Prop where
  ledger : Ledger pool k.freelist T.total
  apart : T.Apart
  count_eq : ∀ q, k.count q = T.total q

variable {img pool}

/-- **`incrementRefCount`** adds a sharer. -/
theorem Counted.incrementRefCount_spec
    (hvalid : ∀ p ∈ pool, img.endPage ≤ p ∧ p < frames) (h : Counted.Acct pool k T)
    (hp : 0 < T.shared p) : Allows E (Counted.incrementRefCount img p k) fun k' =>
      Counted.Acct pool k' (T + .sharer p) ∧ k'.mem = k.mem ∧ k'.freelist = k.freelist := by
  have hpos : 0 < T.total p := Nat.add_pos_right _ hp
  have hin := hvalid p (h.ledger.used p hpos)
  have hcount := h.count_eq p
  rw [Counted.incrementRefCount, if_neg (by omega), if_neg (by omega)]
  refine .ok ⟨⟨h.ledger.recount fun q => ?_, h.apart.share hp, fun q => ?_⟩, rfl, rfl⟩
  · rw [Refs.total_add, Refs.total_sharer]
    by_cases hqp : q = p
    · rw [hqp]
      omega
    · rw [hit_ne hqp, Nat.add_zero]
  · show Function.update k.count p (k.count p + 1) q = _
    rw [Refs.total_add, Refs.total_sharer]
    by_cases hqp : q = p
    · rw [hqp, Function.update_self, hit_self, hcount]
      rfl
    · rw [Function.update_of_ne hqp, hit_ne hqp, Nat.add_zero]
      exact h.count_eq q

theorem Counted.kalloc_spec (hvalid : ∀ p ∈ pool, img.endPage ≤ p ∧ p < frames)
    (h : Counted.Acct pool k T) :
    Allows E (Counted.kalloc k) (Taken (Counted.Acct pool) k T) := by
  unfold Counted.kalloc
  split
  case h_1 => exact .ok rfl
  case h_2 p next hfree =>
    have hledger := h.ledger
    rw [hfree] at hledger
    have hin := hvalid p ((hledger.mem_free p).mp List.mem_cons_self).1
    have hnew : ∀ T' : Refs Nat, (∀ q, T'.total q = T.total q + hit (some p) q) →
        (∀ q, q ≠ p → T'.own q = T.own q) →
        Counted.Acct pool { k with freelist := next, count := Function.update k.count p 1 }
          T' := by
      intro T' hT hother
      obtain ⟨hzero, hledger'⟩ := hledger.alloc hT
      refine ⟨hledger', h.apart.fresh hzero hT hother, fun q => ?_⟩
      show Function.update k.count p 1 q = _
      by_cases hqp : q = p
      · rw [hqp, Function.update_self, hT, hzero, hit_self]
        rfl
      · rw [Function.update_of_ne hqp, hT, hit_ne hqp, Nat.add_zero]
        exact h.count_eq q
    rw [if_neg (by omega)]
    refine .ok ⟨(hledger.alloc fun _ => rfl).1, hnew _ (fun q => ?_) fun q hq => ?_,
      hnew _ (fun q => ?_) fun q _ => ?_, rfl⟩
    · rw [Refs.total_add, Refs.total_owner]
    · rw [Refs.add_own, Refs.owner_own, hit_ne hq, Nat.add_zero]
    · rw [Refs.total_add, Refs.total_sharer]
    · rw [Refs.add_own, Refs.sharer_own, Nat.add_zero]

theorem Counted.kfree_spec (hvalid : ∀ p ∈ pool, img.endPage ≤ p ∧ p < frames)
    (h : Counted.Acct pool k T) (hp : 0 < T.total p)
    (hT : ∀ q, T'.total q + hit (some p) q = T.total q) (hown : ∀ q, T'.own q ≤ T.own q)
    (hshared : ∀ q, T'.shared q ≤ T.shared q) : Allows E (Counted.kfree img p k) fun k' =>
      Counted.Acct pool k' T' ∧ ∀ q, 0 < T'.total q → k'.mem q = k.mem q := by
  have hin := hvalid p (h.ledger.used p hp)
  have hcount := h.count_eq p
  have hself := hT p
  rw [hit_self] at hself
  have hcounts : ∀ q, Function.update k.count p (k.count p - 1) q = T'.total q := by
    intro q
    by_cases hqp : q = p
    · rw [hqp, Function.update_self]
      omega
    · have hsame := hT q
      rw [hit_ne hqp, Nat.add_zero] at hsame
      rw [Function.update_of_ne hqp, hsame]
      exact h.count_eq q
  have hapart := h.apart.less hown hshared
  rw [Counted.kfree, if_neg (by omega), if_neg (by omega)]
  simp only [Function.update_self]
  rw [if_neg (by omega)]
  split
  case isTrue hne =>
    refine .ok ⟨⟨h.ledger.recount fun q => ?_, hapart, hcounts⟩, fun _ _ => rfl⟩
    by_cases hqp : q = p
    · rw [hqp]
      omega
    · have hsame := hT q
      rw [hit_ne hqp, Nat.add_zero] at hsame
      rw [hsame]
  case isFalse heq =>
    have hone : T.total p = 1 := by omega
    exact .ok ⟨⟨h.ledger.release hone hT, hapart, hcounts⟩, fun q hq =>
      Function.update_of_ne (ne_of_last hT hone hq) _ _⟩

variable (img pool)

/-- **The books of xv6-public(1).** -/
def Counted.books : Books counted img where
  pool := pool
  Acct := Counted.Acct pool
  valid hp := hvalid _ hp
  ledger h := h.ledger
  apart h := h.apart
  setMem _ h := ⟨h.ledger, h.apart, h.count_eq⟩
  kalloc_spec h := Counted.kalloc_spec hvalid h
  kfree_spec h hp hT hown hshared := Counted.kfree_spec hvalid h hp hT hown hshared

end Books

end OsCodes.Paging
