/-
  A ring buffer of `c` cells whose two counters only ever grow, modulo `2 ^ w`.

  The counters are not reduced modulo `c`: that is done where a cell is picked, so that a full
  buffer differs from an empty one.  The cells picked before and after a counter wraps around fit
  together if `c` divides `2 ^ w`, and the difference of the counters tells how much there is if
  `c < 2 ^ w`.  `contents` is the queue that the buffer stands for.

  The two facts that the wraparound could break are proved first: cells are picked in turn also
  across it (`cell_add`), and `c` numbers in a row pick `c` different cells (`cell_ne`).  With
  them a byte that is put goes to the end of `contents` and a byte that is taken is its first, as
  for any queue, while `Fits` holds.
-/
import Mathlib.Algebra.Order.Ring.Nat
import Mathlib.Data.Fin.Basic
import Mathlib.Data.List.Range

namespace OsCodes

/-- The cells and the two counters, of which the one for reading runs behind. -/
structure RingBuffer (α : Type) (c w : Nat) where
  data : Fin c → α
  nread : BitVec w
  nwrite : BitVec w

namespace RingBuffer

variable {α : Type} {c w : Nat} [NeZero c]

/-- The cell for the byte with number `n`. -/
def cell (c : Nat) [NeZero c] {w : Nat} (n : BitVec w) : Fin c := Fin.ofNat c n.toNat

/-- The two counters are equal. -/
def isEmpty (r : RingBuffer α c w) : Bool := r.nread == r.nwrite

/-- The writer is one round ahead. -/
def isFull (r : RingBuffer α c w) : Bool := r.nwrite == r.nread + BitVec.ofNat w c

/-- `data[nwrite++ % c] = x`. -/
def put (r : RingBuffer α c w) (x : α) : RingBuffer α c w :=
  { r with data := Function.update r.data (cell c r.nwrite) x, nwrite := r.nwrite + 1#w }

/-- `data[nread % c]`. -/
def front (r : RingBuffer α c w) : α := r.data (cell c r.nread)

/-- `nread++`. -/
def next (r : RingBuffer α c w) : RingBuffer α c w := { r with nread := r.nread + 1#w }

/-! ## The queue -/

/-- How far the writer is ahead, also where the counters have wrapped around. -/
def size (r : RingBuffer α c w) : Nat := (r.nwrite - r.nread).toNat

/-- The elements from the read counter on, oldest first. -/
def contents (r : RingBuffer α c w) : List α :=
  (List.range r.size).map fun i => r.data (cell c (r.nread + BitVec.ofNat w i))

/-- No more is in the buffer than it has cells. -/
def Fits (r : RingBuffer α c w) : Prop := r.size ≤ c

variable {r : RingBuffer α c w}

@[simp] theorem length_contents (r : RingBuffer α c w) : r.contents.length = r.size := by
  rw [contents, List.length_map, List.length_range]

omit [NeZero c] in
theorem nwrite_eq (r : RingBuffer α c w) : r.nwrite = r.nread + BitVec.ofNat w r.size := by
  rw [size, BitVec.ofNat_toNat, BitVec.setWidth_eq, BitVec.add_comm, BitVec.sub_add_cancel]

omit [NeZero c] in
theorem isEmpty_iff : r.isEmpty = true ↔ r.size = 0 := by
  rw [isEmpty, beq_iff_eq, size]
  constructor
  · intro h
    rw [h, BitVec.sub_self, BitVec.toNat_zero]
  · intro h
    have hzero : r.nwrite - r.nread = 0#w := BitVec.eq_of_toNat_eq h
    rw [← BitVec.sub_add_cancel r.nwrite r.nread, hzero, BitVec.zero_add]

theorem contents_eq_nil_iff : r.contents = [] ↔ r.isEmpty = true := by
  rw [isEmpty_iff, ← length_contents, List.length_eq_zero_iff]

section Wraps

variable (hlt : c < 2 ^ w)

include hlt

omit [NeZero c] in
theorem isFull_iff : r.isFull = true ↔ r.size = c := by
  rw [isFull, beq_iff_eq]
  constructor
  · intro h
    rw [size, h, BitVec.add_comm, BitVec.add_sub_cancel, BitVec.toNat_ofNat, Nat.mod_eq_of_lt hlt]
  · intro h
    rw [r.nwrite_eq, h]

omit [NeZero c] in
theorem size_lt (hfits : r.Fits) (hfull : r.isFull = false) : r.size < c := by
  have hne : r.size ≠ c := fun h => by
    rw [(isFull_iff hlt).mpr h] at hfull
    cases hfull
  have hle : r.size ≤ c := hfits
  omega

theorem size_put (hfits : r.Fits) (hfull : r.isFull = false) (x : α) :
    (r.put x).size = r.size + 1 := by
  have hsize := size_lt hlt hfits hfull
  have hsub : (r.put x).nwrite - (r.put x).nread = BitVec.ofNat w (r.size + 1) := by
    show r.nwrite + 1#w - r.nread = _
    rw [r.nwrite_eq, BitVec.add_assoc, BitVec.add_comm r.nread, BitVec.add_sub_cancel,
      BitVec.ofNat_add]
  rw [size, hsub, BitVec.toNat_ofNat, Nat.mod_eq_of_lt (by omega)]

theorem put_fits (hfits : r.Fits) (hfull : r.isFull = false) (x : α) : (r.put x).Fits := by
  have hsize := size_lt hlt hfits hfull
  rw [Fits, size_put hlt hfits hfull]
  exact hsize

variable (hdvd : c ∣ 2 ^ w)

include hdvd

omit hlt in
/-- The cells are picked in turn, also where the counter wraps around. -/
theorem cell_add (n : BitVec w) (i : Nat) :
    (cell c (n + BitVec.ofNat w i)).val = (n.toNat + i) % c := by
  rw [cell, Fin.val_ofNat, BitVec.toNat_add, BitVec.toNat_ofNat, Nat.add_mod_mod,
    Nat.mod_mod_of_dvd _ hdvd]

omit hlt in
/-- `c` bytes in a row have cells of their own. -/
theorem cell_ne {n : BitVec w} {i j : Nat} (hij : i < j) (hj : j < i + c) :
    cell c (n + BitVec.ofNat w i) ≠ cell c (n + BitVec.ofNat w j) := by
  intro h
  have hval := congrArg Fin.val h
  rw [cell_add hdvd, cell_add hdvd] at hval
  have hdiv := Nat.dvd_of_mod_eq_zero (Nat.sub_mod_eq_zero_of_mod_eq hval.symm)
  have hle := Nat.le_of_dvd (by omega) hdiv
  omega

/-- **A byte put** goes to the end of the queue. -/
theorem contents_put (hfits : r.Fits) (hfull : r.isFull = false) (x : α) :
    (r.put x).contents = r.contents ++ [x] := by
  have hsize := size_lt hlt hfits hfull
  have hlast : cell c r.nwrite = cell c (r.nread + BitVec.ofNat w r.size) := by
    rw [← r.nwrite_eq]
  rw [contents, size_put hlt hfits hfull, List.range_succ, List.map_append, contents]
  congr 1
  · refine List.map_congr_left fun i hi => ?_
    have hi : i < r.size := List.mem_range.mp hi
    show Function.update r.data (cell c r.nwrite) x _ = _
    rw [Function.update_of_ne]
    · rfl
    · rw [hlast]
      exact cell_ne hdvd hi (by omega)
  · show [Function.update r.data (cell c r.nwrite) x (cell c (r.nread + _))] = [x]
    rw [← hlast, Function.update_self]

end Wraps

omit [NeZero c] in
theorem size_next (hempty : r.isEmpty = false) : r.next.size + 1 = r.size := by
  have hpos : r.size ≠ 0 := fun h => by
    rw [isEmpty_iff.mpr h] at hempty
    cases hempty
  have hsub : r.next.nwrite - r.next.nread = BitVec.ofNat w (r.size - 1) := by
    show r.nwrite - (r.nread + 1#w) = _
    have hsucc : BitVec.ofNat w r.size = 1#w + BitVec.ofNat w (r.size - 1) := by
      rw [← BitVec.ofNat_add, Nat.add_sub_cancel' (by omega)]
    rw [r.nwrite_eq, hsucc, ← BitVec.add_assoc, BitVec.add_comm (r.nread + 1#w),
      BitVec.add_sub_cancel]
  have hbound : r.size < 2 ^ w := BitVec.isLt _
  rw [size, hsub, BitVec.toNat_ofNat, Nat.mod_eq_of_lt (by omega)]
  omega

/-- **The byte in front** is the first of the queue. -/
theorem contents_next (hempty : r.isEmpty = false) : r.contents = r.front :: r.next.contents := by
  rw [contents, ← size_next hempty, List.range_succ_eq_map, List.map_cons, List.map_map]
  congr 1
  · show r.data (cell c (r.nread + 0#w)) = r.front
    rw [front, BitVec.add_zero]
  · refine List.map_congr_left fun i _ => ?_
    show r.data (cell c (r.nread + BitVec.ofNat w (i + 1))) =
      r.data (cell c (r.nread + 1#w + BitVec.ofNat w i))
    rw [BitVec.add_assoc, Nat.add_comm i 1, BitVec.ofNat_add]

omit [NeZero c] in
theorem next_fits (hfits : r.Fits) (hempty : r.isEmpty = false) : r.next.Fits := by
  have hsize := size_next hempty
  have hle : r.size ≤ c := hfits
  rw [Fits]
  omega

end RingBuffer

end OsCodes
