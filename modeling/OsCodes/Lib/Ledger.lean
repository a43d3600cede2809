/-
  Exact accounts of a pool of objects.

  An object is referred to by owners, who have it to themselves, and by sharers.  `Refs` says how
  often, `Apart` that an owned object has no second reference, and `Ledger` that the free list has
  exactly the objects of the pool that nobody refers to, each once.  So the ledger of a pool is
  determined by the references alone, and free and used objects together are the pool
  (`Ledger.length_add_card`).

  The ledger is more than an invariant of the free list: from the references alone it follows
  which objects are free and how many (`Ledger.length_add_card`).  So "nothing is lost" and
  "nothing is handed out twice" are two readings of one fact, and an operation that fails and puts
  everything back has the same free objects as before because it has the same references.
-/
import Mathlib.Algebra.BigOperators.Group.Finset.Basic
import Mathlib.Data.Finset.Card
import OsCodes.Lib.Refcount

namespace OsCodes

open Refcount

/-! ## References -/

/-- How often each object is referred to. -/
@[ext]
structure Refs (ι : Type) where
  own : ι → Nat
  shared : ι → Nat

namespace Refs

section Algebra

variable {ι : Type}

instance : Add (Refs ι) :=
  ⟨fun S T => ⟨fun p => S.own p + T.own p, fun p => S.shared p + T.shared p⟩⟩

instance : Zero (Refs ι) := ⟨⟨fun _ => 0, fun _ => 0⟩⟩

@[simp] theorem add_own (S T : Refs ι) (p : ι) : (S + T).own p = S.own p + T.own p := rfl

@[simp] theorem add_shared (S T : Refs ι) (p : ι) :
    (S + T).shared p = S.shared p + T.shared p := rfl

/-- Equal at every object. -/
theorem eq_of {S T : Refs ι} (hown : ∀ p, S.own p = T.own p)
    (hshared : ∀ p, S.shared p = T.shared p) : S = T :=
  Refs.ext (funext hown) (funext hshared)

instance : AddCommMonoid (Refs ι) where
  add_assoc S T U := eq_of (fun p => Nat.add_assoc _ _ _) (fun p => Nat.add_assoc _ _ _)
  zero_add T := eq_of (fun p => Nat.zero_add _) (fun p => Nat.zero_add _)
  add_zero T := eq_of (fun p => Nat.add_zero _) (fun p => Nat.add_zero _)
  add_comm S T := eq_of (fun p => Nat.add_comm _ _) (fun p => Nat.add_comm _ _)
  nsmul := nsmulRec

/-- All references to an object, those of owners and those of sharers. -/
def total (T : Refs ι) (p : ι) : Nat := T.own p + T.shared p

@[simp] theorem total_add (S T : Refs ι) (p : ι) : (S + T).total p = S.total p + T.total p := by
  rw [total, total, total, add_own, add_shared]
  omega

/-- The references of a family, object by object. -/
theorem sum_own {κ : Type} (s : Finset κ) (f : κ → Refs ι) (p : ι) :
    (∑ i ∈ s, f i).own p = ∑ i ∈ s, (f i).own p :=
  map_sum (⟨⟨fun T : Refs ι => T.own p, rfl⟩, fun _ _ => rfl⟩ : Refs ι →+ Nat) f s

theorem sum_shared {κ : Type} (s : Finset κ) (f : κ → Refs ι) (p : ι) :
    (∑ i ∈ s, f i).shared p = ∑ i ∈ s, (f i).shared p :=
  map_sum (⟨⟨fun T : Refs ι => T.shared p, rfl⟩, fun _ _ => rfl⟩ : Refs ι →+ Nat) f s

variable [DecidableEq ι]

/-- One owner of `p`. -/
def owner (p : ι) : Refs ι := ⟨hit (some p), fun _ => 0⟩

/-- One sharer of `p`. -/
def sharer (p : ι) : Refs ι := ⟨fun _ => 0, hit (some p)⟩

@[simp] theorem owner_own (p q : ι) : (owner p).own q = hit (some p) q := rfl

@[simp] theorem sharer_own (p q : ι) : (sharer p).own q = 0 := rfl

@[simp] theorem total_owner (p q : ι) : (owner p).total q = hit (some p) q := Nat.add_zero _

@[simp] theorem total_sharer (p q : ι) : (sharer p).total q = hit (some p) q := Nat.zero_add _

end Algebra

/-- An object with an owner has no other reference. -/
def Apart {ι : Type} (T : Refs ι) : Prop := ∀ p, 0 < T.own p → T.total p = 1

section Apart

variable {ι : Type} {T T' : Refs ι} {p : ι}

/-- Dropping references. -/
theorem Apart.less (h : T.Apart) (hown : ∀ q, T'.own q ≤ T.own q)
    (hshared : ∀ q, T'.shared q ≤ T.shared q) : T'.Apart := by
  intro q hq
  have hone := h q (Nat.lt_of_lt_of_le hq (hown q))
  have hle := hown q
  have hle' := hshared q
  rw [total] at hone ⊢
  omega

variable [DecidableEq ι]

/-- **A first reference**, of either kind. -/
theorem Apart.fresh (h : T.Apart) (hp : T.total p = 0)
    (hT : ∀ q, T'.total q = T.total q + hit (some p) q) (hother : ∀ q, q ≠ p → T'.own q = T.own q) :
    T'.Apart := by
  intro q hq
  by_cases hqp : q = p
  · rw [hT, hqp, hp, hit_self]
  · rw [hT, hit_ne hqp]
    rw [hother q hqp] at hq
    exact h q hq

/-- **One sharer more** of an object that is shared. -/
theorem Apart.share (h : T.Apart) (hp : 0 < T.shared p) : (T + sharer p).Apart := by
  intro q hq
  rw [add_own, sharer_own, Nat.add_zero] at hq
  have hone := h q hq
  rw [total] at hone
  have hqp : q ≠ p := by
    intro hqp
    rw [hqp] at hone hq
    omega
  rw [total_add, total_sharer, hit_ne hqp]
  exact h q hq

end Apart

end Refs

/-! ## The ledger -/

/-- The free list has the objects of the pool to which there is no reference. -/
structure Ledger {ι : Type} (pool : Finset ι) (free : List ι) (T : ι → Nat) : Prop where
  nodup : free.Nodup
  mem_free : ∀ p, p ∈ free ↔ p ∈ pool ∧ T p = 0
  used : ∀ p, 0 < T p → p ∈ pool

namespace Ledger

section Rules

variable {ι : Type} {pool : Finset ι} {free : List ι} {T T' : ι → Nat} {p : ι}

/-- **Only whether an object is used matters.** -/
theorem recount (h : Ledger pool free T) (hT : ∀ q, 0 < T' q ↔ 0 < T q) : Ledger pool free T' := by
  refine ⟨h.nodup, fun q => ?_, fun q hq => h.used q ((hT q).mp hq)⟩
  have hzero : T' q = 0 ↔ T q = 0 := by
    have := hT q
    omega
  rw [hzero]
  exact h.mem_free q

variable [DecidableEq ι]

/-- Before there are references, the whole pool is free. -/
theorem start (h : free.Nodup) : Ledger free.toFinset free fun _ => 0 :=
  ⟨h, fun _ => by rw [List.mem_toFinset]; exact ⟨fun hin => ⟨hin, rfl⟩, fun hand => hand.1⟩,
    fun _ hpos => absurd hpos (Nat.lt_irrefl 0)⟩

/-- The first free object gets its first reference. -/
theorem alloc (h : Ledger pool (p :: free) T) (hT : ∀ q, T' q = T q + hit (some p) q) :
    T p = 0 ∧ Ledger pool free T' := by
  obtain ⟨hpool, hzero⟩ := (h.mem_free p).mp List.mem_cons_self
  obtain ⟨hnot, hnodup⟩ := List.nodup_cons.mp h.nodup
  refine ⟨hzero, hnodup, fun q => ?_, fun q hq => ?_⟩
  · by_cases hqp : q = p
    · rw [hqp, hT, hit_self]
      exact ⟨fun hin => absurd hin hnot, fun h' => absurd h'.2 (Nat.succ_ne_zero _)⟩
    · rw [hT, hit_ne hqp, Nat.add_zero, ← h.mem_free q, List.mem_cons]
      exact ⟨.inr, fun hor => hor.resolve_left hqp⟩
  · by_cases hqp : q = p
    · rw [hqp]
      exact hpool
    · rw [hT, hit_ne hqp, Nat.add_zero] at hq
      exact h.used q hq

/-- The last reference goes, and the object is free. -/
theorem release (h : Ledger pool free T) (hp : T p = 1)
    (hT : ∀ q, T' q + hit (some p) q = T q) : Ledger pool (p :: free) T' := by
  have hself : T' p = 0 := by
    have := hT p
    rw [hit_self] at this
    omega
  have hother : ∀ {q}, q ≠ p → T' q = T q := by
    intro q hq
    rw [← hT q, hit_ne hq, Nat.add_zero]
  have hnot : p ∉ free := fun hin => by
    have hzero := ((h.mem_free p).mp hin).2
    omega
  refine ⟨List.nodup_cons.mpr ⟨hnot, h.nodup⟩, fun q => ?_, fun q hq => ?_⟩
  · by_cases hqp : q = p
    · rw [hqp, hself]
      exact ⟨fun _ => ⟨h.used p (by omega), rfl⟩, fun _ => List.mem_cons_self⟩
    · rw [hother hqp, ← h.mem_free q, List.mem_cons]
      exact ⟨fun hor => hor.resolve_left hqp, .inr⟩
  · have hqp : q ≠ p := by
      intro hqp
      rw [hqp] at hq
      omega
    rw [hother hqp] at hq
    exact h.used q hq

/-- **Free and used objects are the pool.** -/
theorem length_add_card (h : Ledger pool free T) :
    free.length + (pool.filter fun p => 0 < T p).card = pool.card := by
  have hfree : free.toFinset = pool.filter fun p => ¬ 0 < T p := by
    ext q
    rw [List.mem_toFinset, h.mem_free, Finset.mem_filter, Nat.pos_iff_ne_zero, not_not]
  rw [← List.toFinset_card_of_nodup h.nodup, hfree, Nat.add_comm]
  exact Finset.card_filter_add_card_filter_not _

end Rules

end Ledger

end OsCodes
