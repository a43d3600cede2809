/-
  Disk blocks, and the `int`s that a block holds.

  A block is a fixed number of bytes; `mem` shows it as a memory and `ofMem` cuts one out of a
  memory, so that what is done to the block's data is done with `Lib.Bytes`.  `put32` stores an
  `int`, `put32s` an array of them and `get32s` reads it back.

  What an array of `int`s says after a store is read off entry by entry; a store in front of or
  behind an entry leaves it (`get32_put32_of_disjoint`, `get32_put32s_of_le`).
-/
import OsCodes.Lib.Bytes

namespace OsCodes.Bytes

/-- A block of `n` bytes. -/
abbrev Block (n : Nat) := Fin n → UInt8

namespace Block

variable {n : Nat}

/-- The block's bytes from address 0 on. -/
def mem (b : Block n) : Mem := fun k => if h : k < n then b ⟨k, h⟩ else 0

/-- The first `n` bytes of a memory. -/
def ofMem (m : Mem) : Block n := fun k => m k

@[simp] theorem mem_ofMem {m : Mem} {k : Nat} (h : k < n) : (ofMem m : Block n).mem k = m k :=
  dif_pos h

end Block

/-! ## Storing `int`s -/

/-- `*(int*)(m + p) = v`. -/
def put32 (m : Mem) (p : Nat) (v : Int32) : Mem := blit m p 4 (le32 v)

/-- An array of `int`s stored from `p` on. -/
def put32s (m : Mem) (p : Nat) : List Int32 → Mem
  | [] => m
  | v :: vs => put32s (put32 m p v) (p + 4) vs

/-- The `n` `int`s from `p` on. -/
def get32s (m : Mem) (p : Nat) : Nat → List Int32
  | 0 => []
  | n + 1 => get32 m p :: get32s m (p + 4) n

theorem get32_put32 (m : Mem) (p : Nat) (v : Int32) : get32 (put32 m p v) p = v := by
  have hbytes : get32 (put32 m p v) p = get32 (le32 v) 0 := by
    apply get32_congr
    intro k hk
    rw [Nat.zero_add]
    exact view_blit_self hk
  rw [hbytes, get32_le32]

/-- Another `int` is not affected. -/
theorem get32_put32_of_disjoint {m : Mem} {p q : Nat} {v : Int32} (h : q + 4 ≤ p ∨ p + 4 ≤ q) :
    get32 (put32 m p v) q = get32 m q :=
  get32_congr fun _ _ => blit_out (by omega)

/-- What is in front of an array stays. -/
theorem get32_put32s_of_le {p q : Nat} (h : q + 4 ≤ p) (vs : List Int32) (m : Mem) :
    get32 (put32s m p vs) q = get32 m q := by
  induction vs generalizing m p with
  | nil => rfl
  | cons v vs ih => rw [put32s, ih (by omega), get32_put32_of_disjoint (.inl h)]

/-- **An array of `int`s** is read back as it was stored. -/
theorem get32s_put32s (vs : List Int32) (m : Mem) (p : Nat) :
    get32s (put32s m p vs) p vs.length = vs := by
  induction vs generalizing m p with
  | nil => rfl
  | cons v vs ih =>
    rw [List.length_cons, get32s, put32s, ih, get32_put32s_of_le (Nat.le_refl _), get32_put32]

/-- Reading an array looks at its bytes only. -/
theorem get32s_congr {m m' : Mem} {p n : Nat} (h : ∀ k, k < p + 4 * n → m k = m' k) :
    get32s m p n = get32s m' p n := by
  induction n generalizing p with
  | zero => rfl
  | succ n ih =>
    rw [get32s, get32s, get32_congr fun k hk => h (p + k) (by omega),
      ih fun k hk => h k (by omega)]

end OsCodes.Bytes
