import Mathlib.Logic.Function.Basic
import Xv6.Lib.Bytes

/-! Bits kept eight to a byte in a buffer. -/
namespace Bitmap
open Bytes Function

/-- The mask of bit `i` within its byte. -/
def mask (i : ℕ) : UInt8 := 1 <<< UInt8.ofNat (i % 8)

def bit (f : Buf) (i : ℕ) : Bool := f (i / 8) &&& mask i != 0

def setBit (f : Buf) (i : ℕ) : Buf := update f (i / 8) (f (i / 8) ||| mask i)

def clearBit (f : Buf) (i : ℕ) : Buf := update f (i / 8) (f (i / 8) &&& ~~~mask i)

theorem toBitVec_mask (i : ℕ) : (mask i).toBitVec = BitVec.twoPow 8 (i % 8) := by
  have hall : ∀ k < 8, (1 <<< UInt8.ofNat k : UInt8).toBitVec = BitVec.twoPow 8 k := by decide
  exact hall (i % 8) (Nat.mod_lt _ (by decide))

theorem bit_eq_getLsbD (f : Buf) (i : ℕ) : bit f i = (f (i / 8)).toBitVec.getLsbD (i % 8) := by
  have hall : ∀ k < 8, BitVec.twoPow 8 k ≠ 0#8 := by decide
  have hpow : BitVec.twoPow 8 (i % 8) ≠ 0#8 := hall (i % 8) (Nat.mod_lt _ (by decide))
  rw [Bool.eq_iff_iff, bit, bne_iff_ne, ne_eq, ← UInt8.toBitVec_inj, UInt8.toBitVec_and,
    toBitVec_mask, BitVec.and_twoPow]
  split_ifs with hb
  · simpa [hb] using hpow
  · simp [hb]

theorem div_mod_eight_inj {i j : ℕ} (hdiv : i / 8 = j / 8) (hmod : i % 8 = j % 8) : i = j := by
  omega

/-- A byte changes in bit `i` only. -/
theorem bit_update {f : Buf} {i : ℕ} {x : UInt8} {v : Bool}
    (hx : ∀ k < 8, x.toBitVec.getLsbD k =
      if i % 8 = k then v else (f (i / 8)).toBitVec.getLsbD k) :
    bit (update f (i / 8) x) = update (bit f) i v := by
  funext j
  have hlt : j % 8 < 8 := Nat.mod_lt _ (by decide)
  rw [bit_eq_getLsbD]
  by_cases hdiv : j / 8 = i / 8
  · rw [hdiv, update_self, hx _ hlt]
    by_cases hij : j = i
    · rw [hij, if_pos rfl, update_self]
    · rw [if_neg fun h => hij (div_mod_eight_inj hdiv h.symm), update_of_ne hij, bit_eq_getLsbD, hdiv]
  · have hij : j ≠ i := fun h => hdiv (by rw [h])
    rw [update_of_ne hdiv, update_of_ne hij, bit_eq_getLsbD]

theorem bit_setBit (f : Buf) (i : ℕ) : bit (setBit f i) = update (bit f) i true := by
  refine bit_update fun k hk => ?_
  rw [UInt8.toBitVec_or, BitVec.getLsbD_or, toBitVec_mask, BitVec.getLsbD_twoPow]
  by_cases h : i % 8 = k <;> simp [h, hk]

theorem bit_clearBit (f : Buf) (i : ℕ) : bit (clearBit f i) = update (bit f) i false := by
  refine bit_update fun k hk => ?_
  rw [UInt8.toBitVec_and, BitVec.getLsbD_and, UInt8.toBitVec_not, BitVec.getLsbD_not, toBitVec_mask,
    BitVec.getLsbD_twoPow]
  by_cases h : i % 8 = k <;> simp [h, hk]

end Bitmap
