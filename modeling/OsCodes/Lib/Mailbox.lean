/-
  Numbered messages handed over in slots.

  A slot is free, or it holds a message that is still to be taken.  Messages 1, 2, … are put into
  free slots, and they are taken in the order in which they were put.  `Sound` is what the
  operations keep: nobody who follows them writes over a message that is still to be taken, and
  what is taken is 1, 2, … in order.

  A mailbox is what a pair of index queues amounts to: `pending` are the slots on their way to the
  taker, in order, and `free` those on their way back.  Whoever passes indices on without a
  message only reorders the free slots (`Sound.reorder`); a slot with a message that was taken
  counts as free from then on, whatever it still holds.
-/
import Mathlib.Data.List.Perm.Basic
import Mathlib.Data.List.Nodup
import Mathlib.Logic.Function.Basic

namespace OsCodes

/-- Slots with the number of the message in them (`none` for no whole message), those with a
    message to take, in the order of the messages, those without, and what was taken. -/
structure Mailbox (ι : Type) where
  slots : ι → Option Nat
  pending : List ι
  free : List ι
  taken : List (Option Nat)

namespace Mailbox

variable {ι : Type} {all : List ι} {m : Mailbox ι} {j : ι}

/-- The messages `k + 1, …, k + l`. -/
def messages (k l : Nat) : List (Option Nat) := (List.range' (k + 1) l).map some

theorem messages_succ (k l : Nat) : messages k (l + 1) = some (k + 1) :: messages (k + 1) l := by
  rw [messages, List.range'_succ, List.map_cons]
  rfl

theorem messages_concat (k l : Nat) : messages k (l + 1) = messages k l ++ [some (k + l + 1)] := by
  rw [messages, List.range'_concat, List.map_append, List.map_singleton]
  congr 3
  omega

/-- The number of messages that were put. -/
def count (m : Mailbox ι) : Nat := m.taken.length + m.pending.length

/-- What the operations keep: every slot is in one place, the slots to be taken hold the next
    messages in order, and those that were taken came in order. -/
structure Sound (all : List ι) (m : Mailbox ι) : Prop where
  nodup : all.Nodup
  perm : (m.pending ++ m.free).Perm all
  /-- the messages that are there -/
  tags : m.pending.map m.slots = messages m.taken.length m.pending.length
  /-- and those that were taken -/
  taken : m.taken = messages 0 m.taken.length
  old : ∀ j ∈ m.free, ∀ t, m.slots j = some t → t ≤ m.taken.length

namespace Sound

theorem owners (h : Sound all m) : (m.pending ++ m.free).Nodup := h.perm.nodup_iff.mpr h.nodup

theorem not_pending (h : Sound all m) (hj : j ∈ m.free) : j ∉ m.pending := by
  intro hp
  exact (List.nodup_append.mp h.owners).2.2 j hp j hj rfl

/-- Free slots in another order. -/
theorem reorder (h : Sound all m) {f : List ι} (hperm : f.Perm m.free) :
    Sound all { m with free := f } where
  nodup := h.nodup
  perm := (hperm.append_left m.pending).trans h.perm
  tags := h.tags
  taken := h.taken
  old j hj := h.old j (hperm.mem_iff.mp hj)

/-- **A message in a free slot has been taken.** -/
theorem taken_of_free (h : Sound all m) (hj : j ∈ m.free) {t : Nat} (ht : m.slots j = some t) :
    t = 0 ∨ some t ∈ m.taken := by
  have hle := h.old j hj t ht
  rcases Nat.eq_zero_or_pos t with h0 | hpos
  · exact .inl h0
  · right
    rw [h.taken, messages]
    exact List.mem_map.mpr ⟨t, List.mem_range'_1.mpr ⟨by omega, by omega⟩, rfl⟩

section Update

variable [DecidableEq ι]

/-- Writing to a free slot leaves the messages alone. -/
theorem map_update (h : Sound all m) (hj : j ∈ m.free) (v : Option Nat) :
    m.pending.map (Function.update m.slots j v) = m.pending.map m.slots := by
  refine List.map_congr_left fun i hi => Function.update_of_ne ?_ _ _
  rintro rfl
  exact h.not_pending hj hi

/-- **A free slot** gets anything that is no new message. -/
theorem touch (h : Sound all m) (hj : j ∈ m.free) {v : Option Nat}
    (hv : ∀ t, v = some t → t ≤ m.taken.length) :
    Sound all { m with slots := Function.update m.slots j v } where
  nodup := h.nodup
  perm := h.perm
  tags := (h.map_update hj v).trans h.tags
  taken := h.taken
  old i hi t ht := by
    have ht : Function.update m.slots j v i = some t := ht
    by_cases hij : i = j
    · rw [hij, Function.update_self] at ht
      exact hv t ht
    · rw [Function.update_of_ne hij] at ht
      exact h.old i hi t ht

/-- **Putting** the next message into a free slot. -/
theorem put (h : Sound all m) {free : List ι} (hfree : m.free.Perm (j :: free)) :
    Sound all { m with
      slots := Function.update m.slots j (some (m.count + 1))
      pending := m.pending ++ [j]
      free := free } := by
  have hj : j ∈ m.free := hfree.mem_iff.mpr List.mem_cons_self
  have hperm : (m.pending ++ j :: free).Perm all :=
    (hfree.symm.append_left m.pending).trans h.perm
  constructor
  · exact h.nodup
  · show (m.pending ++ [j] ++ free).Perm all
    rw [List.append_assoc]
    exact hperm
  · show (m.pending ++ [j]).map (Function.update m.slots j (some (m.count + 1))) =
      messages m.taken.length (m.pending ++ [j]).length
    rw [List.map_append, h.map_update hj, h.tags, List.map_singleton, Function.update_self,
      List.length_append, List.length_singleton, messages_concat]
    rfl
  · exact h.taken
  · intro i hi t ht
    have hne : i ≠ j := by
      rintro rfl
      have hnodup := hperm.nodup_iff.mpr h.nodup
      exact (List.nodup_cons.mp (List.nodup_append.mp hnodup).2.1).1 hi
    have ht : Function.update m.slots j _ i = some t := ht
    rw [Function.update_of_ne hne] at ht
    exact h.old i (hfree.mem_iff.mpr (List.mem_cons_of_mem _ hi)) t ht

end Update

/-- **Taking** the first message makes its slot free. -/
theorem take (h : Sound all m) {pending : List ι} (hp : m.pending = j :: pending) :
    m.slots j = some (m.taken.length + 1) ∧
    Sound all { m with
      pending := pending
      free := j :: m.free
      taken := m.taken ++ [m.slots j] } := by
  have htags := h.tags
  rw [hp, List.map_cons, List.length_cons, messages_succ] at htags
  obtain ⟨hslot, hrest⟩ := List.cons.inj htags
  have hlen : (m.taken ++ [m.slots j]).length = m.taken.length + 1 := by
    rw [List.length_append, List.length_singleton]
  refine ⟨hslot, h.nodup, ?_, ?_, ?_, ?_⟩
  · have hperm := h.perm
    rw [hp] at hperm
    exact List.perm_middle.trans hperm
  · show pending.map m.slots = messages (m.taken ++ [m.slots j]).length pending.length
    rw [hlen]
    exact hrest
  · show m.taken ++ [m.slots j] = messages 0 (m.taken ++ [m.slots j]).length
    rw [hlen, messages_concat, ← h.taken, hslot, Nat.zero_add]
  · intro i hi t ht
    show t ≤ (m.taken ++ [m.slots j]).length
    rw [hlen]
    rcases List.mem_cons.mp hi with rfl | hi
    · have ht : m.slots i = some t := ht
      rw [hslot] at ht
      have := Option.some.inj ht
      omega
    · have := h.old i hi t ht
      omega

end Sound

end Mailbox

end OsCodes
