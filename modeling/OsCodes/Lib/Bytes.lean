/-
  Byte memories, and the C library operations on them.

  A memory says what byte every address holds; a buffer, a struct image and a file's bytes
  are all memories, read from their own base.  `view` and `blit` are pointer addition and
  `memcpy`; `le32` and `get32` are the little-endian image of an `int` and its reading back;
  `strncpy`, `CStr` and `strcmpEq` follow `<string.h>`.  Nothing here knows who keeps its
  bytes this way.

  Functions that look at part of a memory come with a congruence lemma (`get32_congr`,
  `strncpy_congr`, `strcmpEq_congr`), which is how a proof carries a value over a change
  elsewhere, and the sums of `int`s with lemmas for the case that they fit.  `NulLast` is the
  exact condition for `strncpy` to be a copy: behind a NUL there are only NULs.
-/
import Mathlib.Tactic.Common
import Mathlib.Data.List.GetD

namespace OsCodes.Bytes

/-- What every address holds. -/
abbrev Mem := Nat → UInt8

/-- The memory as seen from `p` on (`m + p` in C). -/
def view (m : Mem) (p : Nat) : Mem := fun k => m (p + k)

/-- `memcpy(m + p, src, n)`. -/
def blit (m : Mem) (p n : Nat) (src : Mem) : Mem :=
  fun k => if p ≤ k ∧ k < p + n then src (k - p) else m k

@[simp] theorem view_apply (m : Mem) (p k : Nat) : view m p k = m (p + k) := rfl

theorem blit_in {m : Mem} {p n : Nat} {src : Mem} {k : Nat} (h : p ≤ k ∧ k < p + n) :
    blit m p n src k = src (k - p) := if_pos h

theorem blit_out {m : Mem} {p n : Nat} {src : Mem} {k : Nat} (h : k < p ∨ p + n ≤ k) :
    blit m p n src k = m k := if_neg (by omega)

/-- Reading the copied range from its base gives the source back. -/
theorem view_blit_self {m : Mem} {p n : Nat} {src : Mem} {k : Nat} (h : k < n) :
    view (blit m p n src) p k = src k := by
  rw [view_apply, blit_in (by omega)]
  congr 1
  omega

/-! ## `int`: four bytes, little-endian -/

/-- Byte `k` of the image of `v`. -/
def le32 (v : Int32) : Mem := fun k => UInt8.ofBitVec (v.toBitVec.extractLsb' (8 * k) 8)

/-- The `int` whose image starts at `p`. -/
def get32 (m : Mem) (p : Nat) : Int32 :=
  Int32.ofBitVec
    ((m (p + 3)).toBitVec ++ (m (p + 2)).toBitVec ++ (m (p + 1)).toBitVec ++ (m p).toBitVec)

/-- Only the four bytes at `p` matter. -/
theorem get32_congr {m m' : Mem} {p p' : Nat} (h : ∀ k < 4, m (p + k) = m' (p' + k)) :
    get32 m p = get32 m' p' := by
  have h0 := h 0 (by omega)
  have h1 := h 1 (by omega)
  have h2 := h 2 (by omega)
  have h3 := h 3 (by omega)
  simp only [Nat.add_zero] at h0
  simp only [get32, h0, h1, h2, h3]

/-- The bits of an `int` in memory. -/
theorem get32_getLsbD (m : Mem) (p : Nat) {k i : Nat} (hk : k < 4) (hi : i < 8) :
    (get32 m p).toBitVec.getLsbD (8 * k + i) = (m (p + k)).toBitVec.getLsbD i := by
  simp only [get32, Int32.toBitVec_ofBitVec, BitVec.getLsbD_append]
  have h : k = 0 ∨ k = 1 ∨ k = 2 ∨ k = 3 := by omega
  rcases h with rfl | rfl | rfl | rfl
  · rw [if_pos (by omega), Nat.mul_zero, Nat.zero_add, Nat.add_zero]
  · rw [if_neg (by omega), if_pos (by omega), show 8 * 1 + i - 8 = i by omega]
  · rw [if_neg (by omega), if_neg (by omega), if_pos (by omega),
      show 8 * 2 + i - 8 - 8 = i by omega]
  · rw [if_neg (by omega), if_neg (by omega), if_neg (by omega),
      show 8 * 3 + i - 8 - 8 - 8 = i by omega]

theorem le32_getLsbD (v : Int32) (k : Nat) {i : Nat} (hi : i < 8) :
    (le32 v k).toBitVec.getLsbD i = v.toBitVec.getLsbD (8 * k + i) := by
  simp only [le32, UInt8.toBitVec_ofBitVec, BitVec.getLsbD_extractLsb', decide_eq_true hi,
    Bool.true_and]

/-- An `int` survives being stored and read back. -/
theorem get32_le32 (v : Int32) : get32 (le32 v) 0 = v := by
  apply Int32.toBitVec_inj.mp
  apply BitVec.eq_of_getLsbD_eq
  intro i hi
  rw [← Nat.div_add_mod i 8, get32_getLsbD _ _ (by omega) (by omega),
    le32_getLsbD _ _ (by omega), Nat.zero_add]

/-- Four bytes survive being read and stored back. -/
theorem le32_get32 (m : Mem) (p : Nat) {k : Nat} (hk : k < 4) :
    le32 (get32 m p) k = m (p + k) := by
  apply UInt8.toBitVec_inj.mp
  apply BitVec.eq_of_getLsbD_eq
  intro i hi
  rw [le32_getLsbD _ _ hi, get32_getLsbD _ _ hk hi]

/-- Addition of two `int`s that does not overflow. -/
theorem toInt_add_of_fits {a b : Int32} (h : -2147483648 ≤ a.toInt + b.toInt)
    (h' : a.toInt + b.toInt < 2147483648) : (a + b).toInt = a.toInt + b.toInt := by
  rw [Int32.toInt_add]
  exact Int.bmod_eq_of_le (by omega) (by omega)

theorem toInt_ofInt_of_fits {z : Int} (h : -2147483648 ≤ z) (h' : z < 2147483648) :
    (Int32.ofInt z).toInt = z := by
  rw [Int32.toInt_ofInt]
  exact Int.bmod_eq_of_le (by simp only [Int32.size]; omega) (by simp only [Int32.size]; omega)

/-- `a++` below `INT_MAX`. -/
theorem toInt_add_one {a : Int32} (h : a ≠ Int32.maxValue) : (a + 1).toInt = a.toInt + 1 := by
  have hne : a.toInt ≠ Int32.maxValue.toInt := fun heq => h (Int32.toInt_inj.mp heq)
  have hmax : Int32.maxValue.toInt = 2147483647 := rfl
  have hlt := Int32.toInt_lt a
  have hge := Int32.le_toInt a
  have hone : (1 : Int32).toInt = 1 := rfl
  rw [toInt_add_of_fits (by omega) (by omega), hone]

/-- `a--` above `INT_MIN`. -/
theorem toInt_sub_one {a : Int32} (h : a ≠ Int32.minValue) : (a - 1).toInt = a.toInt - 1 := by
  have hne : a.toInt ≠ Int32.minValue.toInt := fun heq => h (Int32.toInt_inj.mp heq)
  have hmin : Int32.minValue.toInt = -2147483648 := rfl
  have hlt := Int32.toInt_lt a
  have hge := Int32.le_toInt a
  have hone : (1 : Int32).toInt = 1 := rfl
  rw [Int32.toInt_sub, hone]
  exact Int.bmod_eq_of_le (by omega) (by omega)

/-- A small number is added as such. -/
theorem toInt_add_ofInt {a : Int32} {z n : Nat} (ha : a.toInt = z) (hz : z ≤ 256) (hn : n ≤ 256) :
    (a + Int32.ofInt n).toInt = (z + n : Nat) := by
  have hofInt : (Int32.ofInt (n : Int)).toInt = n := toInt_ofInt_of_fits (by omega) (by omega)
  rw [toInt_add_of_fits (by omega) (by omega), ha, hofInt]
  rfl

/-! ## `strncpy`: copy up to the first NUL, then pad with NULs -/

/-- What `strncpy(dst, src, n)` leaves in `dst[0..n)`; the copy itself is a `blit` of it. -/
def strncpy (src : Mem) : Mem := fun k => if ∀ j, j ≤ k → src j ≠ 0 then src k else 0

/-- Before the first NUL `strncpy` copies. -/
theorem strncpy_of_nonzero {src : Mem} {k : Nat} (h : ∀ j, j ≤ k → src j ≠ 0) :
    strncpy src k = src k := if_pos h

/-- `strncpy` reads the source only up to the byte asked for. -/
theorem strncpy_congr {src src' : Mem} {k : Nat} (h : ∀ j, j ≤ k → src j = src' j) :
    strncpy src k = strncpy src' k := by
  unfold strncpy
  rw [h k (Nat.le_refl k)]
  congr 1
  apply propext
  constructor
  · intro hs j hj; rw [← h j hj]; exact hs j hj
  · intro hs j hj; rw [h j hj]; exact hs j hj

/-- The first byte is copied, NUL or not. -/
theorem strncpy_head (src : Mem) : strncpy src 0 = src 0 := by
  unfold strncpy
  split
  · rfl
  · rename_i hno
    by_contra h0
    refine hno fun j hj => ?_
    obtain rfl : j = 0 := by omega
    exact fun hsrc => h0 hsrc.symm

/-- Behind a NUL there are only NULs. -/
theorem strncpy_behind_nul {src : Mem} {j k : Nat} (hjk : j ≤ k) (hj : strncpy src j = 0) :
    strncpy src k = 0 := by
  unfold strncpy at hj ⊢
  split
  · rename_i hall
    rw [if_pos fun l hl => hall l (by omega)] at hj
    exact absurd hj (hall j hjk)
  · rfl

/-- No NUL of `src[0..n)` is in front of another byte. -/
def NulLast (src : Mem) (n : Nat) : Prop := ∀ j k, j < k → k < n → src j = 0 → src k = 0

/-- `strncpy` copies such bytes as they are. -/
theorem NulLast.strncpy_eq {src : Mem} {n : Nat} (h : NulLast src n) {k : Nat} (hk : k < n) :
    strncpy src k = src k := by
  unfold strncpy
  split
  · rfl
  · rename_i hno
    by_contra h0
    refine hno fun j hj hsrc => ?_
    by_cases hjk : j = k
    · rw [hjk] at hsrc
      exact h0 hsrc.symm
    · exact h0 (h j k (by omega) hk hsrc).symm

theorem NulLast.view {src : Mem} {n : Nat} (h : NulLast src n) (m : Nat) :
    NulLast (view src m) (n - m) :=
  fun j k hjk hk hj => h (m + j) (m + k) (by omega) (by omega) hj

/-! ## C strings -/

/-- A C string: its characters, none of them NUL. -/
structure CStr where
  chars : List UInt8
  noNul : (0 : UInt8) ∉ chars
  deriving DecidableEq

namespace CStr

/-- The characters of the string and its terminating NUL, as `char *` sees them. -/
def mem (s : CStr) : Mem := fun k => s.chars.getD k 0

/-- `strlen`. -/
def len (s : CStr) : Nat := s.chars.length

theorem mem_ne_zero {s : CStr} {k : Nat} (h : k < s.len) : s.mem k ≠ 0 := by
  intro h0
  rw [mem, List.getD_eq_getElem _ _ h] at h0
  exact s.noNul (h0 ▸ List.getElem_mem h)

@[simp] theorem mem_len (s : CStr) : s.mem s.len = 0 :=
  List.getD_eq_default _ _ (Nat.le_refl _)

end CStr

/-- `strcmp(a, s) == 0`: the two agree up to and including the NUL of `s`. -/
def strcmpEq (a : Mem) (s : CStr) : Bool := decide (∀ k, k ≤ s.len → a k = s.mem k)

theorem strcmpEq_iff {a : Mem} {s : CStr} :
    strcmpEq a s = true ↔ ∀ k, k ≤ s.len → a k = s.mem k := by
  simp only [strcmpEq, decide_eq_true_eq]

/-- `strcmp` looks no further than the NUL of `s`. -/
theorem strcmpEq_congr {a b : Mem} {s : CStr} (h : ∀ k, k ≤ s.len → a k = b k) :
    strcmpEq a s = strcmpEq b s := by
  rw [Bool.eq_iff_iff, strcmpEq_iff, strcmpEq_iff]
  constructor
  · intro ha k hk; rw [← h k hk]; exact ha k hk
  · intro hb k hk; rw [h k hk]; exact hb k hk

/-- A memory spells at most one string. -/
theorem strcmpEq_unique {a : Mem} {s t : CStr} (hs : strcmpEq a s = true)
    (ht : strcmpEq a t = true) : s = t := by
  rw [strcmpEq_iff] at hs ht
  -- the NUL of either string cannot fall inside the other
  have hlen : s.len = t.len := by
    rcases Nat.lt_trichotomy s.len t.len with h | h | h
    · have h0 : t.mem s.len = 0 := by rw [← ht s.len (by omega), hs s.len (by omega), s.mem_len]
      exact absurd h0 (CStr.mem_ne_zero h)
    · exact h
    · have h0 : s.mem t.len = 0 := by rw [← hs t.len (by omega), ht t.len (by omega), t.mem_len]
      exact absurd h0 (CStr.mem_ne_zero h)
  have hchars : s.chars = t.chars := by
    apply List.ext_getElem hlen
    intro k hk hk'
    have h : s.mem k = t.mem k := by
      rw [← hs k (Nat.le_of_lt hk), ht k (Nat.le_of_lt hk')]
    rwa [CStr.mem, CStr.mem, List.getD_eq_getElem _ _ hk, List.getD_eq_getElem _ _ hk'] at h
  cases s
  cases t
  simp only at hchars
  subst hchars
  rfl

/-- A memory that starts with NUL spells no string of positive length. -/
theorem strcmpEq_nul {a : Mem} {s : CStr} (h0 : a 0 = 0) (hs : 0 < s.len) :
    strcmpEq a s = false := by
  rw [Bool.eq_false_iff]
  intro h
  rw [strcmpEq_iff] at h
  exact CStr.mem_ne_zero hs (by rw [← h 0 (by omega), h0])

end OsCodes.Bytes
