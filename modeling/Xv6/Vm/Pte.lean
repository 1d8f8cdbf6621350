import Mathlib.Algebra.Order.Ring.Nat
import Mathlib.Tactic.Common

/-! Sv39 addresses and page-table entries: the macros of `riscv.h` and `memlayout.h`, and the
bits of the entries that the kernel builds. -/
namespace Xv6

abbrev pgsize : ℕ := 4096
abbrev kernbase : ℕ := 0x80000000
abbrev phystop : ℕ := kernbase + 128 * 1024 * 1024
abbrev maxva : ℕ := 2 ^ 38
abbrev trampolineVa : ℕ := maxva - pgsize
abbrev trapframeVa : ℕ := trampolineVa - pgsize

def pgroundup (sz : ℕ) : ℕ := (sz + pgsize - 1) % 2 ^ 64 / pgsize * pgsize
def pgrounddown (a : ℕ) : ℕ := a / pgsize * pgsize
def px (level va : ℕ) : ℕ := va / 2 ^ (12 + 9 * level) % 512

abbrev Pte := BitVec 64

def pteV : Pte := 1#64 <<< 0
def pteR : Pte := 1#64 <<< 1
def pteW : Pte := 1#64 <<< 2
def pteX : Pte := 1#64 <<< 3
def pteU : Pte := 1#64 <<< 4
def pteCow : Pte := 1#64 <<< 8

def pa2pte (pa : ℕ) : Pte := (BitVec.ofNat 64 pa >>> 12) <<< 10
def pte2pa (pte : Pte) : ℕ := ((pte >>> 10) <<< 12).toNat
def pteFlags (pte : Pte) : Pte := pte &&& 0x3FF#64

def valid (p : Pte) : Bool := p.getLsbD 0
def readable (p : Pte) : Bool := p.getLsbD 1
def writable (p : Pte) : Bool := p.getLsbD 2
def executable (p : Pte) : Bool := p.getLsbD 3
def user (p : Pte) : Bool := p.getLsbD 4
def cow (p : Pte) : Bool := p.getLsbD 8

/-- The entry maps a page and does not point to a lower table. -/
def leaf (p : Pte) : Bool := readable p || writable p || executable p

theorem getLsbD_one_shl (n k : ℕ) :
    (1#64 <<< n).getLsbD k = (decide (k < 64) && decide (k = n)) := by
  simp only [BitVec.getLsbD_shiftLeft, BitVec.getLsbD_one]
  grind

theorem and_eq_zero_iff_bits (p m : Pte) :
    p &&& m = 0#64 ↔ ∀ k < 64, m.getLsbD k = true → p.getLsbD k = false := by
  constructor
  · intro h k hk hm
    have hbit := congrArg (fun q => BitVec.getLsbD q k) h
    simpa [hm] using hbit
  · intro h
    apply BitVec.eq_of_getLsbD_eq
    intro i hi
    have hi' := h i hi
    rw [BitVec.getLsbD_and]
    cases hm : m.getLsbD i <;> simp_all

variable (p : Pte)

theorem and_one_shl_eq_zero {n : ℕ} (hn : n < 64) :
    p &&& (1#64 <<< n) = 0#64 ↔ p.getLsbD n = false := by
  simp only [and_eq_zero_iff_bits, getLsbD_one_shl]
  grind

/-- A mask test of the source asks for every bit of the mask. -/
theorem and_eq_mask_iff (p m : Pte) :
    p &&& m = m ↔ ∀ k < 64, m.getLsbD k = true → p.getLsbD k = true := by
  constructor
  · intro h k hk hm
    rw [← h, BitVec.getLsbD_and, Bool.and_eq_true] at hm
    exact hm.1
  · intro h
    apply BitVec.eq_of_getLsbD_eq
    intro i hi
    have hi' := h i hi
    rw [BitVec.getLsbD_and]
    cases hm : m.getLsbD i <;> simp_all

@[simp] theorem and_pteV : p &&& pteV = 0#64 ↔ valid p = false :=
  and_one_shl_eq_zero p (by decide)

@[simp] theorem and_pteU : p &&& pteU = 0#64 ↔ user p = false :=
  and_one_shl_eq_zero p (by decide)

@[simp] theorem and_pteCow : p &&& pteCow = 0#64 ↔ cow p = false :=
  and_one_shl_eq_zero p (by decide)

@[simp] theorem and_vuc : p &&& (pteV ||| pteU ||| pteCow) = pteV ||| pteU ||| pteCow ↔
    valid p = true ∧ user p = true ∧ cow p = true := by
  rw [and_eq_mask_iff]
  simp only [pteV, pteU, pteCow, BitVec.getLsbD_or, getLsbD_one_shl, valid, user, cow]
  constructor
  · intro h
    exact ⟨h 0 (by decide) (by decide), h 4 (by decide) (by decide), h 8 (by decide) (by decide)⟩
  · rintro ⟨h0, h4, h8⟩ k hk hm
    simp only [hk, decide_true, Bool.true_and, Bool.or_eq_true, decide_eq_true_eq] at hm
    rcases hm with (rfl | rfl) | rfl <;> assumption

theorem getLsbD_flagMask (k : ℕ) : (0x3FF#64).getLsbD k = decide (k < 10) := by
  have h : (0x3FF#64) = (BitVec.allOnes 10).setWidth 64 := by decide
  rw [h, BitVec.getLsbD_setWidth, BitVec.getLsbD_allOnes]
  grind

theorem getLsbD_pteFlags (k : ℕ) : (pteFlags p).getLsbD k = (p.getLsbD k && decide (k < 10)) := by
  rw [pteFlags, BitVec.getLsbD_and, getLsbD_flagMask]

@[simp] theorem and_wu : pteFlags p &&& (pteW ||| pteU) = pteW ||| pteU ↔
    writable p = true ∧ user p = true := by
  rw [and_eq_mask_iff]
  simp only [pteW, pteU, BitVec.getLsbD_or, getLsbD_one_shl, writable, user, getLsbD_pteFlags]
  constructor
  · intro h
    have h2 := h 2 (by decide) (by decide)
    have h4 := h 4 (by decide) (by decide)
    simp at h2 h4
    exact ⟨h2, h4⟩
  · rintro ⟨h2, h4⟩ k hk hm
    simp only [hk, decide_true, Bool.true_and, Bool.or_eq_true, decide_eq_true_eq] at hm
    rcases hm with rfl | rfl <;> simp [h2, h4]

@[simp] theorem and_rwx : p &&& (pteR ||| pteW ||| pteX) = 0#64 ↔ leaf p = false := by
  rw [and_eq_zero_iff_bits]
  simp only [pteR, pteW, pteX, BitVec.getLsbD_or, getLsbD_one_shl, leaf, readable, writable,
    executable, Bool.or_eq_false_iff]
  constructor
  · intro h
    exact ⟨⟨h 1 (by decide) (by decide), h 2 (by decide) (by decide)⟩,
      h 3 (by decide) (by decide)⟩
  · rintro ⟨⟨h1, h2⟩, h3⟩ k hk hm
    simp only [hk, decide_true, Bool.true_and, Bool.or_eq_true, decide_eq_true_eq] at hm
    rcases hm with (rfl | rfl) | rfl <;> assumption

theorem getLsbD_pa2pte (pa k : ℕ) :
    (pa2pte pa).getLsbD k = (decide (10 ≤ k) && decide (k < 62) && pa.testBit (k + 2)) := by
  unfold pa2pte
  simp only [BitVec.getLsbD_shiftLeft, BitVec.getLsbD_ushiftRight, BitVec.getLsbD_ofNat]
  by_cases hk : 10 ≤ k
  · rw [show 12 + (k - 10) = k + 2 by omega]
    by_cases hlt : k < 62
    · simp [hk, hlt, show k < 64 by omega, show ¬ k < 10 by omega, show k + 2 < 64 by omega]
    · simp [hlt, show ¬ k + 2 < 64 by omega]
  · simp [hk, show k < 10 by omega]

/-- Only bits that `pteFlags` keeps are set. -/
def FlagBits (fl : Pte) : Prop := ∀ k, 10 ≤ k → fl.getLsbD k = false

theorem flagBits_pteFlags : FlagBits (pteFlags p) := by
  intro k hk
  simp [getLsbD_pteFlags, show ¬ k < 10 by omega]

theorem FlagBits.or {a b : Pte} (ha : FlagBits a) (hb : FlagBits b) : FlagBits (a ||| b) := by
  intro k hk
  simp [ha k hk, hb k hk]

theorem FlagBits.and {a : Pte} (ha : FlagBits a) (b : Pte) : FlagBits (a &&& b) := by
  intro k hk
  simp [ha k hk]

theorem flagBits_one_shl {n : ℕ} (hn : n < 10) : FlagBits (1#64 <<< n) := by
  intro k hk
  rw [getLsbD_one_shl]
  simp [show k ≠ n by omega]

@[simp] theorem flagBits_pteV : FlagBits pteV := flagBits_one_shl (by decide)
@[simp] theorem flagBits_pteR : FlagBits pteR := flagBits_one_shl (by decide)
@[simp] theorem flagBits_pteW : FlagBits pteW := flagBits_one_shl (by decide)
@[simp] theorem flagBits_pteX : FlagBits pteX := flagBits_one_shl (by decide)
@[simp] theorem flagBits_pteU : FlagBits pteU := flagBits_one_shl (by decide)
@[simp] theorem flagBits_pteCow : FlagBits pteCow := flagBits_one_shl (by decide)

/-- The entry built from an aligned address and flags maps that address. -/
theorem pte2pa_or {pa : ℕ} {fl : Pte} (hp : pa % pgsize = 0) (hlt : pa < 2 ^ 64)
    (hf : FlagBits fl) : pte2pa (pa2pte pa ||| fl) = pa := by
  apply Nat.eq_of_testBit_eq
  intro k
  unfold pte2pa
  rw [BitVec.testBit_toNat]
  simp only [BitVec.getLsbD_shiftLeft, BitVec.getLsbD_ushiftRight, BitVec.getLsbD_or,
    getLsbD_pa2pte]
  by_cases hk : k < 12
  · have hlow : pa.testBit k = false := by
      rw [show pa = 2 ^ 12 * (pa / 2 ^ 12) by simp only [pgsize] at hp; omega, Nat.testBit_two_pow_mul]
      simp [show ¬ 12 ≤ k by omega]
    simp [hk, hlow]
  · by_cases hk64 : k < 64
    · have hfl := hf (10 + (k - 12)) (by omega)
      simp [hk64, hk, hfl, show 10 + (k - 12) + 2 = k by omega, show 10 + (k - 12) < 62 by omega]
    · have hhigh : pa.testBit k = false :=
        Nat.testBit_lt_two_pow (Nat.lt_of_lt_of_le hlt (Nat.pow_le_pow_right (by omega) (by omega)))
      simp [hhigh, hk64]

theorem pte2pa_lt : pte2pa p < 2 ^ 64 := BitVec.isLt _

theorem pte2pa_aligned : pte2pa p % pgsize = 0 := by
  unfold pte2pa
  rw [BitVec.toNat_shiftLeft, Nat.shiftLeft_eq]
  simp only [pgsize]
  omega

theorem getLsbD_pa2pte_or (pa : ℕ) (fl : Pte) {k : ℕ} (hk : k < 10) :
    (pa2pte pa ||| fl).getLsbD k = fl.getLsbD k := by
  simp [getLsbD_pa2pte, show ¬ 10 ≤ k by omega]

section flags
variable (pa : ℕ) (fl : Pte)

@[simp] theorem valid_pa2pte_or : valid (pa2pte pa ||| fl) = valid fl :=
  getLsbD_pa2pte_or pa fl (by decide)
@[simp] theorem readable_pa2pte_or : readable (pa2pte pa ||| fl) = readable fl :=
  getLsbD_pa2pte_or pa fl (by decide)
@[simp] theorem writable_pa2pte_or : writable (pa2pte pa ||| fl) = writable fl :=
  getLsbD_pa2pte_or pa fl (by decide)
@[simp] theorem executable_pa2pte_or : executable (pa2pte pa ||| fl) = executable fl :=
  getLsbD_pa2pte_or pa fl (by decide)
@[simp] theorem user_pa2pte_or : user (pa2pte pa ||| fl) = user fl :=
  getLsbD_pa2pte_or pa fl (by decide)
@[simp] theorem cow_pa2pte_or : cow (pa2pte pa ||| fl) = cow fl :=
  getLsbD_pa2pte_or pa fl (by decide)
@[simp] theorem leaf_pa2pte_or : leaf (pa2pte pa ||| fl) = leaf fl := by
  simp [leaf]

end flags

/-- The test for an entry that is valid and nothing else finds inner entries only. -/
theorem leaf_of_pteFlags_eq_pteV {p : Pte} (h : pteFlags p = pteV) : leaf p = false := by
  have hbit : ∀ k, 0 < k → k < 10 → p.getLsbD k = false := by
    intro k h0 hk
    have hk' := congrArg (fun q => BitVec.getLsbD q k) h
    simp only [getLsbD_pteFlags, pteV, getLsbD_one_shl] at hk'
    simpa [hk, show k ≠ 0 by omega] using hk'
  rw [leaf, readable, writable, executable, hbit 1 (by decide) (by decide),
    hbit 2 (by decide) (by decide), hbit 3 (by decide) (by decide)]
  rfl

end Xv6
