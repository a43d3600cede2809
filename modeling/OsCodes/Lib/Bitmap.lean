/-
  Bitmaps in byte memories.

  Bit `k` is bit `k % 8` of byte `k / 8`; it is tested, set and cleared with the mask
  `1 << (k % 8)`, as C code does it.  `bit_setBit` and `bit_clearBit` say that an update changes
  the one bit it names.
-/
import Mathlib.Logic.Function.Basic
import OsCodes.Lib.Block

namespace OsCodes.Bytes

/-- `1 << (k % 8)`, as a byte. -/
def mask (k : Nat) : UInt8 := 1 <<< UInt8.ofNat (k % 8)

/-- `(m[k/8] & (1 << (k % 8))) != 0`. -/
def bit (m : Mem) (k : Nat) : Bool := m (k / 8) &&& mask k != 0

/-- `m[k/8] |= 1 << (k % 8)`. -/
def setBit (m : Mem) (k : Nat) : Mem := Function.update m (k / 8) (m (k / 8) ||| mask k)

/-- `m[k/8] &= ~(1 << (k % 8))`. -/
def clearBit (m : Mem) (k : Nat) : Mem := Function.update m (k / 8) (m (k / 8) &&& ~~~ mask k)

theorem mask_toBitVec (k : Nat) : (mask k).toBitVec = BitVec.twoPow 8 (k % 8) := by
  have hall : ∀ j : Fin 8, ((1 : UInt8) <<< UInt8.ofNat j).toBitVec = BitVec.twoPow 8 j := by
    decide
  exact hall ⟨k % 8, Nat.mod_lt _ (by decide)⟩

theorem bit_eq_getLsbD (m : Mem) (k : Nat) :
    bit m k = (m (k / 8)).toBitVec.getLsbD (k % 8) := by
  have h : k % 8 < 8 := Nat.mod_lt _ (by decide)
  rw [Bool.eq_iff_iff, bit, bne_iff_ne, Ne, ← UInt8.toBitVec_inj, UInt8.toBitVec_and,
    mask_toBitVec, BitVec.and_twoPow]
  cases hb : (m (k / 8)).toBitVec.getLsbD (k % 8) with
  | false => simp
  | true =>
    rw [if_pos rfl]
    simp only [iff_true]
    intro h0
    have hbit := BitVec.getLsbD_twoPow (w := 8) (k % 8) (k % 8)
    rw [h0] at hbit
    simp [h] at hbit

/-- Only the byte the bit is in matters. -/
theorem bit_congr {m m' : Mem} {k : Nat} (h : m (k / 8) = m' (k / 8)) : bit m k = bit m' k := by
  rw [bit, bit, h]

/-- **Setting** a bit. -/
theorem bit_setBit (m : Mem) (j k : Nat) : bit (setBit m j) k = (decide (k = j) || bit m k) := by
  have hk : k % 8 < 8 := Nat.mod_lt _ (by decide)
  rw [bit_eq_getLsbD, bit_eq_getLsbD, setBit]
  by_cases hbyte : k / 8 = j / 8
  · rw [hbyte, Function.update_self, UInt8.toBitVec_or, BitVec.getLsbD_or, mask_toBitVec,
      BitVec.getLsbD_twoPow, Bool.or_comm]
    congr 1
    rw [Bool.eq_iff_iff, Bool.and_eq_true, decide_eq_true_eq, decide_eq_true_eq, decide_eq_true_eq]
    omega
  · rw [Function.update_of_ne hbyte, decide_eq_false fun heq => hbyte (by rw [heq]),
      Bool.false_or]

/-- **Clearing** a bit. -/
theorem bit_clearBit (m : Mem) (j k : Nat) :
    bit (clearBit m j) k = (!decide (k = j) && bit m k) := by
  have hk : k % 8 < 8 := Nat.mod_lt _ (by decide)
  rw [bit_eq_getLsbD, bit_eq_getLsbD, clearBit]
  by_cases hbyte : k / 8 = j / 8
  · rw [hbyte, Function.update_self, UInt8.toBitVec_and, UInt8.toBitVec_not, BitVec.getLsbD_and,
      BitVec.getLsbD_not, mask_toBitVec, BitVec.getLsbD_twoPow, decide_eq_true hk, Bool.true_and,
      Bool.and_comm]
    congr 2
    rw [Bool.eq_iff_iff, Bool.and_eq_true, decide_eq_true_eq, decide_eq_true_eq, decide_eq_true_eq]
    omega
  · rw [Function.update_of_ne hbyte, decide_eq_false fun heq => hbyte (by rw [heq]),
      Bool.not_false, Bool.true_and]

end OsCodes.Bytes
