/-
  Fields of C structs in byte memories: `short`s, `uint`s and arrays of `uint`s.

  Each has a reader and a writer; reading back what was written gives it again, and a `blit`
  elsewhere does not change what is read.

  Offsets are plain numbers, so a struct's layout is where its user's definitions put the fields.
  The width of the reads is part of the names: 2 bytes for a `short`, 4 for a `uint`,
  little-endian.
-/
import OsCodes.Lib.Block

namespace OsCodes.Bytes

/-! ## `short` -/

/-- Byte `k` of the image of `v`. -/
def le16 (v : Int16) : Mem := fun k => UInt8.ofBitVec (v.toBitVec.extractLsb' (8 * k) 8)

/-- The `short` whose image starts at `p`. -/
def get16 (m : Mem) (p : Nat) : Int16 :=
  Int16.ofBitVec ((m (p + 1)).toBitVec ++ (m p).toBitVec)

/-- `*(short*)(m + p) = v`. -/
def put16 (m : Mem) (p : Nat) (v : Int16) : Mem := blit m p 2 (le16 v)

theorem get16_congr {m m' : Mem} {p p' : Nat} (h : ∀ k < 2, m (p + k) = m' (p' + k)) :
    get16 m p = get16 m' p' := by
  have h0 := h 0 (by omega)
  have h1 := h 1 (by omega)
  simp only [Nat.add_zero] at h0
  rw [get16, get16, h0, h1]

theorem get16_le16 (v : Int16) : get16 (le16 v) 0 = v := by
  apply Int16.toBitVec_inj.mp
  apply BitVec.eq_of_getLsbD_eq
  intro i hi
  simp only [get16, Int16.toBitVec_ofBitVec, BitVec.getLsbD_append, le16,
    UInt8.toBitVec_ofBitVec, BitVec.getLsbD_extractLsb']
  by_cases h : i < 8
  · simp [h]
  · simp [h, show i - 8 < 8 by omega, show 8 + (i - 8) = i by omega]

@[simp] theorem get16_put16 (m : Mem) (p : Nat) (v : Int16) : get16 (put16 m p v) p = v := by
  have hbytes : get16 (put16 m p v) p = get16 (le16 v) 0 := by
    apply get16_congr
    intro k hk
    rw [Nat.zero_add]
    exact view_blit_self hk
  rw [hbytes, get16_le16]

theorem get16_blit_of_disjoint {m src : Mem} {p n q : Nat} (h : q + 2 ≤ p ∨ p + n ≤ q) :
    get16 (blit m p n src) q = get16 m q :=
  get16_congr fun _ _ => blit_out (by omega)

/-! ## `uint` -/

/-- The `uint` whose image starts at `p`. -/
def getU32 (m : Mem) (p : Nat) : UInt32 := (get32 m p).toUInt32

/-- `*(uint*)(m + p) = v`. -/
def putU32 (m : Mem) (p : Nat) (v : UInt32) : Mem := put32 m p v.toInt32

theorem getU32_congr {m m' : Mem} {p p' : Nat} (h : ∀ k < 4, m (p + k) = m' (p' + k)) :
    getU32 m p = getU32 m' p' := by
  rw [getU32, getU32, get32_congr h]

@[simp] theorem getU32_putU32 (m : Mem) (p : Nat) (v : UInt32) : getU32 (putU32 m p v) p = v := by
  rw [getU32, putU32, get32_put32]
  rfl

theorem getU32_blit_of_disjoint {m src : Mem} {p n q : Nat} (h : q + 4 ≤ p ∨ p + n ≤ q) :
    getU32 (blit m p n src) q = getU32 m q :=
  getU32_congr fun _ _ => blit_out (by omega)

theorem getU32_putU32_of_disjoint {m : Mem} {p q : Nat} {v : UInt32}
    (h : q + 4 ≤ p ∨ p + 4 ≤ q) : getU32 (putU32 m p v) q = getU32 m q :=
  getU32_blit_of_disjoint h

theorem get16_put16_of_disjoint {m : Mem} {p q : Nat} {v : Int16} (h : q + 2 ≤ p ∨ p + 2 ≤ q) :
    get16 (put16 m p v) q = get16 m q :=
  get16_blit_of_disjoint h

theorem get16_putU32_of_disjoint {m : Mem} {p q : Nat} {v : UInt32} (h : q + 2 ≤ p ∨ p + 4 ≤ q) :
    get16 (putU32 m p v) q = get16 m q :=
  get16_blit_of_disjoint h

/-- A memory of NULs reads as 0. -/
theorem getU32_eq_zero {m : Mem} {p : Nat} (h : ∀ k < 4, m (p + k) = 0) : getU32 m p = 0 := by
  have hzero : getU32 m p = getU32 (fun _ => 0) 0 := getU32_congr fun k hk => h k hk
  rw [hzero]
  rfl

/-! ## Arrays of `uint`s -/

/-- The array as the memory it is kept in. -/
def image {n : Nat} (a : Fin n → UInt32) : Mem := fun k =>
  if h : k / 4 < n then le32 (a ⟨k / 4, h⟩).toInt32 (k % 4) else 0

theorem getU32_image {n : Nat} (a : Fin n → UInt32) (i : Fin n) :
    getU32 (image a) (4 * i) = a i := by
  have hbytes : getU32 (image a) (4 * i) = getU32 (le32 (a i).toInt32) 0 := by
    apply getU32_congr
    intro k hk
    have hdiv : (4 * (i : Nat) + k) / 4 = i := by omega
    have hmod : (4 * (i : Nat) + k) % 4 = k := by omega
    rw [image, Nat.zero_add, dif_pos (by rw [hdiv]; exact i.isLt), hmod]
    congr 3
    exact Fin.ext hdiv
  rw [hbytes, getU32, get32_le32]
  rfl

/-- `memmove(m + p, a, sizeof(a))`, read back. -/
theorem getU32_blit_image {n : Nat} (m : Mem) (p : Nat) (a : Fin n → UInt32) (i : Fin n) :
    getU32 (blit m p (4 * n) (image a)) (p + 4 * i) = a i := by
  have hbytes : getU32 (blit m p (4 * n) (image a)) (p + 4 * i) = getU32 (image a) (4 * i) := by
    apply getU32_congr
    intro k hk
    have hi := i.isLt
    rw [blit_in (by omega)]
    congr 1
    omega
  rw [hbytes, getU32_image]

end OsCodes.Bytes
