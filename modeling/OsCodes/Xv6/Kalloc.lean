/-
  The page allocator of xv6-public(1)/kalloc.c, once `kinit2` has run: reference counts are in use.

  Pages are given by their physical page number.  The free list is a list of pages; the link that
  `kfree` leaves in the first bytes of a page is this list.  `Acct` says that the free list and the
  counts are right for given numbers of references, and each function has one specification in
  these terms.

  A pointer is a page number, so alignment holds by construction; `kfree` still looks at the
  bounds that the source checks, and its panic is an error with no text here (`Alloc` has the
  texts).  The spinlock of `kmem` is left out: each function runs with it held, as one step.
-/
import OsCodes.Lib.Refcount
import OsCodes.Lib.Returns

namespace OsCodes.Xv6

open Refcount

/-! ## Memory layout -/

def pgsize : Nat := 4096

def extmem : Nat := 0x100000

def phystop : Nat := 0xE000000

def devspace : Nat := 0xFE000000

def kernbase : Nat := 0x80000000

/-- The number of physical pages, `PHYSTOP / PGSIZE`. -/
def frames : Nat := phystop / pgsize

theorem frames_eq : frames = 57344 := rfl

/-- Where the kernel is in physical memory: `data` starts at a page, and no page before `endPage`
    is free memory. -/
structure Image where
  dataPage : Nat
  endPage : Nat
  data_lt : extmem / pgsize < dataPage
  data_le : dataPage ≤ endPage
  end_lt : endPage < frames

/-! ## The allocator -/

/-- The bytes of a page. -/
abbrev Page := Nat → UInt8

/-- The free list, the counts and the contents of all pages, by page number. -/
structure Kmem where
  freelist : List Nat
  /-- `refcount.count` -/
  count : Nat → Int
  mem : Nat → Page

/-- Why a computation stops. -/
inductive Fault
  | panic
  /-- `kalloc` has no page to return -/
  | noMemory
  /-- the processor refuses an access -/
  | pageFault

/-- `kalloc`: the first page of the free list, with one reference. -/
def kalloc (k : Kmem) : Except Fault (Nat × Kmem) :=
  match k.freelist with
  | [] => .error .noMemory
  | r :: next =>
    if frames ≤ r then .error .panic
    else .ok (r, { k with freelist := next, count := Function.update k.count r 1 })

/-- `kfree`: one reference less, and behind the last one the page is filled with junk and free. -/
def kfree (img : Image) (v : Nat) (k : Kmem) : Except Fault Kmem :=
  if v < img.endPage ∨ frames ≤ v then .error .panic
  else
    let k := { k with count := Function.update k.count v (k.count v - 1) }
    if k.count v < 0 then .error .panic
    else if k.count v ≠ 0 then .ok k
    else
      -- filled with junk
      let k := { k with mem := Function.update k.mem v fun _ => 1 }
      .ok { k with freelist := v :: k.freelist }

/-- `incrementRefCount`. -/
def incrementRefCount (img : Image) (v : Nat) (k : Kmem) : Except Fault Kmem :=
  if v < img.endPage ∨ frames ≤ v then .error .panic
  else if k.count v = 0 then .error .panic
  else .ok { k with count := Function.update k.count v (k.count v + 1) }

/-! ## Accounts -/

/-- The free list and the counts are right for the numbers `T` of references. -/
def Acct (img : Image) (k : Kmem) (T : Nat → Nat) : Prop :=
  Pool (fun p => img.endPage ≤ p ∧ p < frames) k.freelist k.count T

variable {img : Image} {k k' : Kmem} {T T' : Nat → Nat}

theorem Acct.congr (h : Acct img k T) (hT : ∀ q, T' q = T q) : Acct img k T' := Pool.congr h hT

/-- The contents of the pages are no part of the accounts. -/
theorem Acct.setMem (h : Acct img k T) (mem : Nat → Page) : Acct img { k with mem := mem } T := h

/-- **`kalloc`** returns a page that nobody refers to. -/
theorem kalloc_spec (h : Acct img k T) : Returns .noMemory (kalloc k) fun r =>
    T r.1 = 0 ∧ Acct img r.2 (fun q => T q + hit (some r.1) q) ∧ r.2.mem = k.mem := by
  unfold kalloc
  split
  case h_1 => exact .stop
  case h_2 p next hfree =>
    have hfits : Pool (fun p => img.endPage ≤ p ∧ p < frames) (p :: next) k.count T := by
      rw [← hfree]
      exact h
    have hvalid := (hfits.valid (.inl List.mem_cons_self)).2
    have hmore : ∀ q, T q + hit (some p) q = T q + hit (some p) q := fun _ => rfl
    obtain ⟨hzero, hfits'⟩ := hfits.alloc hmore
    rw [if_neg (Nat.not_le_of_lt hvalid)]
    exact .ok ⟨hzero, hfits', rfl⟩

/-- **`kfree`** takes one reference away, and leaves the pages alone that are still referred to. -/
theorem kfree_spec {p : Nat} (h : Acct img k T) (hp : 0 < T p)
    (hT : ∀ q, T' q + hit (some p) q = T q) : Returns .noMemory (kfree img p k) fun k' =>
      Acct img k' T' ∧ ∀ q, 0 < T' q → k'.mem q = k.mem q := by
  have hvalid := h.valid (.inr hp)
  have hcount := h.count_eq (.inr hp)
  unfold kfree
  rw [if_neg (by omega)]
  simp only [Function.update_self]
  rw [if_neg (by omega)]
  split
  case isTrue hne => exact .ok ⟨h.release_shared (by omega) hT, fun _ _ => rfl⟩
  case isFalse heq =>
    refine .ok ⟨h.release_last (by omega) hT, fun q hq => ?_⟩
    have hself := hT p
    rw [hit_self] at hself
    have hqp : q ≠ p := by
      intro hqp
      rw [hqp] at hq
      omega
    exact Function.update_of_ne hqp _ _

/-- **`incrementRefCount`** adds one reference. -/
theorem incrementRefCount_spec {p : Nat} (h : Acct img k T) (hp : 0 < T p) :
    Returns .noMemory (incrementRefCount img p k) fun k' =>
      Acct img k' (fun q => T q + hit (some p) q) ∧ k'.mem = k.mem := by
  have hvalid := h.valid (.inr hp)
  have hcount := h.count_eq (.inr hp)
  unfold incrementRefCount
  rw [if_neg (by omega), if_neg (by omega)]
  exact .ok ⟨h.retain hp fun _ => rfl, rfl⟩

end OsCodes.Xv6
