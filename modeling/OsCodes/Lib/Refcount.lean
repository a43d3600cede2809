/-
  Objects with reference counts.

  `hits` counts the slots of a table that refer to an object.  `Pool` says that a free list and a
  table of counts are right for given numbers `T` of references: a free object has none, and the
  count of an object that is free or referred to is that number.  The rules for allocating,
  retaining and releasing an object change `T` at that object only.

  References are counted over a finite set of slots, a table's entries for example, and `hits` of
  a changed table differs by what the changed slot refers to.  A count is right only for objects
  that are free or in use by a counted reference; what the count of any other object says is left
  open, so that objects outside the pool may share the table.
-/
import Mathlib.Data.Finset.Card
import Mathlib.Data.List.Nodup
import Mathlib.Logic.Function.Basic
import Mathlib.Order.Interval.Finset.Nat
import Mathlib.Algebra.Order.Interval.Finset.SuccPred
import Mathlib.Data.Nat.SuccPred

namespace OsCodes.Refcount

/-! ## References -/

section Hits

variable {κ ι : Type} [DecidableEq ι]

/-- How many slots of `s` refer to `p`. -/
def hits (s : Finset κ) (target : κ → Option ι) (p : ι) : Nat :=
  (s.filter fun i => target i = some p).card

/-- One slot's share. -/
def hit (x : Option ι) (p : ι) : Nat := if x = some p then 1 else 0

theorem hit_none (p : ι) : hit (none : Option ι) p = 0 := if_neg (by intro h; cases h)

theorem hit_self (p : ι) : hit (some p) p = 1 := if_pos rfl

theorem hit_ne {p q : ι} (h : q ≠ p) : hit (some p) q = 0 :=
  if_neg fun heq => h (Option.some.inj heq).symm

theorem hits_pos {s : Finset κ} {target : κ → Option ι} {i : κ} {p : ι} (hi : i ∈ s)
    (h : target i = some p) : 0 < hits s target p :=
  Finset.card_pos.mpr ⟨i, Finset.mem_filter.mpr ⟨hi, h⟩⟩

theorem hits_two {s : Finset κ} {target : κ → Option ι} {i j : κ} {p : ι} (hij : i ≠ j)
    (hi : i ∈ s) (hj : j ∈ s) (hip : target i = some p) (hjp : target j = some p) :
    1 < hits s target p :=
  Finset.one_lt_card.mpr ⟨i, Finset.mem_filter.mpr ⟨hi, hip⟩, j,
    Finset.mem_filter.mpr ⟨hj, hjp⟩, hij⟩

theorem hits_eq_zero {s : Finset κ} {target : κ → Option ι} {p : ι}
    (h : ∀ i ∈ s, target i ≠ some p) : hits s target p = 0 := by
  rw [hits, Finset.card_eq_zero, Finset.filter_eq_empty_iff]
  exact fun i hi => h i hi

/-- Fewer slots refer to it. -/
theorem hits_mono {s : Finset κ} {target target' : κ → Option ι} {p : ι}
    (h : ∀ i ∈ s, target' i = some p → target i = some p) : hits s target' p ≤ hits s target p :=
  Finset.card_le_card fun i hi => by
    rw [Finset.mem_filter] at hi ⊢
    exact ⟨hi.1, h i hi.1 hi.2⟩

/-- Slots that agree. -/
theorem hits_congr {s : Finset κ} {target target' : κ → Option ι}
    (h : ∀ i ∈ s, target' i = target i) (p : ι) : hits s target' p = hits s target p :=
  congrArg Finset.card (Finset.filter_congr fun i hi => by rw [h i hi])

variable [DecidableEq κ]

/-- **One slot changes**: the count goes by what the slot referred to and what it refers to now. -/
theorem hits_update {s : Finset κ} {i : κ} (hi : i ∈ s) (target : κ → Option ι) (x : Option ι)
    (p : ι) : hits s (Function.update target i x) p + hit (target i) p =
      hits s target p + hit x p := by
  have hsplit : ∀ target : κ → Option ι, hits s target p =
      ((s.erase i).filter fun j => target j = some p).card + hit (target i) p := by
    intro target
    rw [hits, ← Finset.insert_erase hi, Finset.filter_insert, hit]
    split
    · rw [Finset.card_insert_of_notMem (by simp), Finset.erase_insert (by simp)]
    · rw [Finset.erase_insert (by simp), Nat.add_zero]
  have hrest : ((s.erase i).filter fun j => Function.update target i x j = some p) =
      (s.erase i).filter fun j => target j = some p := by
    refine Finset.filter_congr fun j hj => ?_
    rw [Function.update_of_ne (Finset.ne_of_mem_erase hj)]
  rw [hsplit (Function.update target i x), hsplit target, hrest, Function.update_self]
  omega

/-- One slot more. -/
theorem hits_insert {s : Finset κ} {i : κ} (hi : i ∉ s) (target : κ → Option ι) (p : ι) :
    hits (insert i s) target p = hits s target p + hit (target i) p := by
  rw [hits, Finset.filter_insert, hit]
  split
  · rw [Finset.card_insert_of_notMem fun hin => hi (Finset.mem_of_mem_filter i hin), hits]
  · rfl

/-- The first slot of a range, and the others. -/
theorem hits_Ico {a b : Nat} (h : a < b) (target : Nat → Option ι) (p : ι) :
    hits (Finset.Ico a b) target p = hits (Finset.Ico (a + 1) b) target p + hit (target a) p := by
  rw [← Finset.insert_Ico_add_one_left_eq_Ico h]
  exact hits_insert (fun hin => Nat.not_succ_le_self a (Finset.mem_Ico.mp hin).1) target p

/-- A slot outside does not matter. -/
theorem hits_update_notMem {s : Finset κ} {i : κ} (hi : i ∉ s) (target : κ → Option ι)
    (x : Option ι) (p : ι) : hits s (Function.update target i x) p = hits s target p :=
  hits_congr (fun j hj => by rw [Function.update_of_ne fun heq : j = i => hi (heq ▸ hj)]) p

end Hits

/-! ## The free list and the counts -/

/-- An object that is referred to is not one that is not. -/
theorem ne_of_used {ι : Type} {T : ι → Nat} {p q : ι} (hq : 0 < T q) (hp : T p = 0) : q ≠ p := by
  intro heq
  rw [heq, hp] at hq
  exact Nat.lt_irrefl 0 hq

section Pool

variable {ι : Type}

/-- The free list and the counts are right for `T`. -/
structure Pool (Valid : ι → Prop) (free : List ι) (count : ι → Int) (T : ι → Nat) : Prop where
  nodup : free.Nodup
  zero : ∀ {p}, p ∈ free → T p = 0
  valid : ∀ {p}, p ∈ free ∨ 0 < T p → Valid p
  count_eq : ∀ {p}, p ∈ free ∨ 0 < T p → count p = T p

variable {Valid : ι → Prop} {free : List ι} {count : ι → Int} {T T' : ι → Nat} {p : ι}

/-- Numbers that agree are as good. -/
theorem Pool.congr (h : Pool Valid free count T) (hT : ∀ q, T' q = T q) :
    Pool Valid free count T' := by
  obtain rfl : T' = T := funext hT
  exact h

variable [DecidableEq ι]

/-- The first free object gets one reference. -/
theorem Pool.alloc (h : Pool Valid (p :: free) count T) (hT : ∀ q, T' q = T q + hit (some p) q) :
    T p = 0 ∧ Pool Valid free (Function.update count p 1) T' := by
  have hp : T p = 0 := h.zero List.mem_cons_self
  obtain ⟨hnot, hnodup⟩ := List.nodup_cons.mp h.nodup
  -- another object has the references it had
  have hother : ∀ {q}, q ≠ p → T' q = T q := by
    intro q hq
    rw [hT, hit_ne hq, Nat.add_zero]
  have hused : ∀ {q}, q ≠ p → q ∈ free ∨ 0 < T' q → q ∈ p :: free ∨ 0 < T q := by
    intro q hq hor
    rw [hother hq] at hor
    exact hor.imp (List.mem_cons_of_mem p) id
  refine ⟨hp, hnodup, fun {q} hq => ?_, fun {q} hor => ?_, fun {q} hor => ?_⟩
  · have hqp : q ≠ p := fun heq => hnot (heq ▸ hq)
    rw [hother hqp]
    exact h.zero (List.mem_cons_of_mem p hq)
  · by_cases hqp : q = p
    · rw [hqp]
      exact h.valid (.inl List.mem_cons_self)
    · exact h.valid (hused hqp hor)
  · by_cases hqp : q = p
    · rw [hqp, Function.update_self, hT, hp, hit_self]
      rfl
    · rw [Function.update_of_ne hqp, hother hqp]
      exact h.count_eq (hused hqp hor)

/-- An object that is referred to changes its count, and does not become free. -/
theorem Pool.recount (h : Pool Valid free count T) (hp : 0 < T p)
    (hother : ∀ q, q ≠ p → T' q = T q) {c : Int} (hc : c = T' p) :
    Pool Valid free (Function.update count p c) T' := by
  have hnot : p ∉ free := by
    intro hin
    have hz := h.zero hin
    omega
  have hused : ∀ {q}, q ∈ free ∨ 0 < T' q → q ∈ free ∨ 0 < T q := by
    intro q hor
    by_cases hqp : q = p
    · rw [hqp]
      exact .inr hp
    · rwa [hother q hqp] at hor
  refine ⟨h.nodup, fun {q} hq => ?_, fun {q} hor => h.valid (hused hor), fun {q} hor => ?_⟩
  · rw [hother q fun heq => hnot (heq ▸ hq)]
    exact h.zero hq
  · by_cases hqp : q = p
    · rw [hqp, Function.update_self, hc]
    · rw [Function.update_of_ne hqp, hother q hqp]
      exact h.count_eq (hused hor)

/-- One more reference to an object that has some already. -/
theorem Pool.retain (h : Pool Valid free count T) (hp : 0 < T p)
    (hT : ∀ q, T' q = T q + hit (some p) q) :
    Pool Valid free (Function.update count p (count p + 1)) T' := by
  have hself : T' p = T p + 1 := by rw [hT, hit_self]
  refine h.recount hp (fun q hq => ?_) ?_
  · rw [hT, hit_ne hq, Nat.add_zero]
  · rw [h.count_eq (.inr hp), hself, Int.natCast_add, Int.natCast_one]

/-- One reference less, but not the last. -/
theorem Pool.release_shared (h : Pool Valid free count T) (hp : 1 < T p)
    (hT : ∀ q, T' q + hit (some p) q = T q) :
    Pool Valid free (Function.update count p (count p - 1)) T' := by
  have hself := hT p
  rw [hit_self] at hself
  refine h.recount (by omega) (fun q hq => ?_) ?_
  · rw [← hT q, hit_ne hq, Nat.add_zero]
  · have hcount := h.count_eq (p := p) (.inr (by omega))
    omega

/-- The last reference: the object becomes free. -/
theorem Pool.release_last (h : Pool Valid free count T) (hp : T p = 1)
    (hT : ∀ q, T' q + hit (some p) q = T q) :
    Pool Valid (p :: free) (Function.update count p (count p - 1)) T' := by
  have hself : T' p = 0 := by
    have := hT p
    rw [hit_self] at this
    omega
  have hother : ∀ {q}, q ≠ p → T' q = T q := by
    intro q hq
    rw [← hT q, hit_ne hq, Nat.add_zero]
  have hpos : 0 < T p := by omega
  have hnot : p ∉ free := by
    intro hin
    have hz := h.zero hin
    omega
  have hused : ∀ {q}, q ≠ p → q ∈ p :: free ∨ 0 < T' q → q ∈ free ∨ 0 < T q := by
    intro q hq hor
    rw [hother hq] at hor
    exact hor.imp (fun hin => (List.mem_cons.mp hin).resolve_left hq) id
  refine ⟨List.nodup_cons.mpr ⟨hnot, h.nodup⟩, fun {q} hq => ?_, fun {q} hor => ?_,
    fun {q} hor => ?_⟩
  · by_cases hqp : q = p
    · rw [hqp, hself]
    · rw [hother hqp]
      exact h.zero ((List.mem_cons.mp hq).resolve_left hqp)
  · by_cases hqp : q = p
    · rw [hqp]
      exact h.valid (.inr hpos)
    · exact h.valid (hused hqp hor)
  · by_cases hqp : q = p
    · have hcount := h.count_eq (.inr hpos)
      rw [hqp, Function.update_self, hself]
      omega
    · rw [Function.update_of_ne hqp, hother hqp]
      exact h.count_eq (hused hqp hor)

end Pool

end OsCodes.Refcount
