import Mathlib.Data.BitVec
import Xv6.Lib.Copies

/-! The two versions of `memmove`, in kernel/string.c and in user/ulib.c. They choose the direction
of the copy by different tests. -/
namespace Xv6
open Copies

abbrev Addr := BitVec 64

/-- Memory as `memmove` sees it, byte by byte. -/
abbrev Mem := Addr → UInt8

/-- `while(n-- > 0) *d++ = *s++;` -/
def copyUp (mem : Mem) (d s : Addr) : ℕ → Mem
  | 0 => mem
  | n + 1 => copyUp (Function.update mem d (mem s)) (d + 1) (s + 1) n

/-- `while(n-- > 0) *--d = *--s;` -/
def copyDown (mem : Mem) (d s : Addr) : ℕ → Mem
  | 0 => mem
  | n + 1 => copyDown (Function.update mem (d - 1) (mem (s - 1))) (d - 1) (s - 1) n

/-- `memmove` of the kernel; `n` is a `uint`. The result is `dst` and the memory. -/
def Kernel.memmove (mem : Mem) (dst src : Addr) (n : BitVec 32) : Addr × Mem :=
  if n = 0 then (dst, mem)
  else if src < dst ∧ dst < src + n.setWidth 64 then
    (dst, copyDown mem (dst + n.setWidth 64) (src + n.setWidth 64) n.toNat)
  else (dst, copyUp mem dst src n.toNat)

/-- `memmove` of the user library; `n` is an `int`, and nothing is copied when it is negative. -/
def User.memmove (mem : Mem) (vdst vsrc : Addr) (n : BitVec 32) : Addr × Mem :=
  if vdst < vsrc then (vdst, copyUp mem vdst vsrc n.toInt.toNat)
  else
    (vdst, copyDown mem (vdst + n.signExtend 64) (vsrc + n.signExtend 64) n.toInt.toNat)

/-- The `n` bytes at `a` do not go past the end of the address space. -/
def NoWrap (a : Addr) (n : ℕ) : Prop := a.toNat + n ≤ 2 ^ 64

/-- The `n` bytes at `src` have been moved to `dst`, and nothing else has changed. -/
structure Moved (mem : Mem) (dst src : Addr) (n : ℕ) (mem' : Mem) : Prop where
  copied : ∀ k, k < n → mem' (dst + BitVec.ofNat 64 k) = mem (src + BitVec.ofNat 64 k)
  frame : ∀ a, (∀ k, k < n → a ≠ dst + BitVec.ofNat 64 k) → mem' a = mem a

section move
variable {mem mem' mem'' : Mem} {d s : Addr} {n : ℕ}

/-- The cells that are copied, from the first one on. -/
def cells (d s : Addr) (n : ℕ) : List (Addr × Addr) :=
  (List.range n).map fun k => (d + BitVec.ofNat 64 k, s + BitVec.ofNat 64 k)

theorem add_ofNat_succ (a : Addr) (k : ℕ) :
    a + BitVec.ofNat 64 (k + 1) = a + 1 + BitVec.ofNat 64 k := by
  rw [Nat.add_comm, BitVec.ofNat_add, ← BitVec.add_assoc]
  rfl

theorem cells_succ (d s : Addr) (n : ℕ) : cells d s (n + 1) = (d, s) :: cells (d + 1) (s + 1) n := by
  simp only [cells, List.range_succ_eq_map, List.map_cons, List.map_map]
  congr 1
  · simp
  · apply List.map_congr_left
    intro k _
    simp only [Function.comp_apply, Nat.succ_eq_add_one, add_ofNat_succ]

theorem cells_succ_last (d s : Addr) (n : ℕ) :
    cells d s (n + 1) = cells d s n ++ [(d + BitVec.ofNat 64 n, s + BitVec.ofNat 64 n)] := by
  simp [cells, List.range_succ]

theorem copyUp_eq (mem : Mem) (d s : Addr) (n : ℕ) :
    copyUp mem d s n = copyAll mem (cells d s n) := by
  induction n generalizing mem d s with
  | zero => rfl
  | succ n ih => rw [copyUp, ih, cells_succ, copyAll_cons]

theorem copyDown_eq (mem : Mem) (d s : Addr) (n : ℕ) :
    copyDown mem (d + BitVec.ofNat 64 n) (s + BitVec.ofNat 64 n) n =
      copyAll mem (cells d s n).reverse := by
  have hback : ∀ (a : Addr) (k : ℕ), a + BitVec.ofNat 64 (k + 1) - 1 = a + BitVec.ofNat 64 k := by
    intro a k
    rw [BitVec.ofNat_add, ← BitVec.add_assoc]
    exact BitVec.add_sub_cancel _ _
  induction n generalizing mem with
  | zero => rfl
  | succ n ih =>
    rw [copyDown, hback, hback, ih, cells_succ_last, List.reverse_append]
    rfl

theorem toNat_add_ofNat {a : Addr} {k : ℕ} (ha : NoWrap a n) (hk : k < n) :
    (a + BitVec.ofNat 64 k).toNat = a.toNat + k := by
  unfold NoWrap at ha
  have hlt := a.isLt
  rw [BitVec.toNat_add, BitVec.toNat_ofNat, Nat.mod_eq_of_lt (show k < 2 ^ 64 by omega),
    Nat.mod_eq_of_lt (by omega)]

theorem add_ofNat_eq_iff {a b : Addr} {j k : ℕ} (ha : NoWrap a n) (hb : NoWrap b n) (hj : j < n)
    (hk : k < n) :
    a + BitVec.ofNat 64 j = b + BitVec.ofNat 64 k ↔ a.toNat + j = b.toNat + k := by
  rw [← toNat_add_ofNat ha hj, ← toNat_add_ofNat hb hk, BitVec.toNat_inj]

/-- Copying is right in any order of the cells that meets no cell too late. -/
theorem moved_of_inOrder {ps : List (Addr × Addr)} (hperm : ps.Perm (cells d s n))
    (horder : InOrder ps) : Moved mem d s n (copyAll mem ps) := by
  have hmem : ∀ k, k < n → (d + BitVec.ofNat 64 k, s + BitVec.ofNat 64 k) ∈ ps := by
    intro k hk
    exact hperm.mem_iff.2 (List.mem_map_of_mem (List.mem_range.2 hk))
  refine ⟨fun k hk => copyAll_inside horder (hmem k hk), fun a ha => copyAll_outside ?_⟩
  intro p hp
  obtain ⟨k, hk, rfl⟩ := List.mem_map.1 (hperm.mem_iff.1 hp)
  exact ha k (List.mem_range.1 hk)

/-- Upwards is right unless the target begins inside the source. -/
theorem copyUp_moved (hd : NoWrap d n) (hs : NoWrap s n)
    (hdir : d.toNat ≤ s.toNat ∨ s.toNat + n ≤ d.toNat) : Moved mem d s n (copyUp mem d s n) := by
  rw [copyUp_eq]
  apply moved_of_inOrder (List.Perm.refl _)
  rw [InOrder, cells, List.pairwise_map]
  refine List.pairwise_lt_range.imp_of_mem ?_
  intro j k hj hk hlt
  rw [List.mem_range] at hj hk
  rw [ne_eq, ne_eq, add_ofNat_eq_iff hd hd hj hk, add_ofNat_eq_iff hd hs hj hk]
  omega

/-- Downwards is right when the target does not begin before the source. -/
theorem copyDown_moved (hd : NoWrap d n) (hs : NoWrap s n) (hdir : s.toNat ≤ d.toNat) :
    Moved mem d s n (copyDown mem (d + BitVec.ofNat 64 n) (s + BitVec.ofNat 64 n) n) := by
  rw [copyDown_eq]
  apply moved_of_inOrder (List.reverse_perm _)
  rw [InOrder, List.pairwise_reverse, cells, List.pairwise_map]
  refine List.pairwise_lt_range.imp_of_mem ?_
  intro j k hj hk hlt
  rw [List.mem_range] at hj hk
  rw [ne_eq, ne_eq, add_ofNat_eq_iff hd hd hk hj, add_ofNat_eq_iff hd hs hk hj]
  omega

theorem Moved.unique (h : Moved mem d s n mem') (h' : Moved mem d s n mem'') : mem' = mem'' := by
  funext a
  by_cases ha : ∃ k, k < n ∧ a = d + BitVec.ofNat 64 k
  · obtain ⟨k, hk, rfl⟩ := ha
    rw [h.copied k hk, h'.copied k hk]
  · have hout : ∀ k, k < n → a ≠ d + BitVec.ofNat 64 k := fun k hk heq => ha ⟨k, hk, heq⟩
    rw [h.frame a hout, h'.frame a hout]

end move

theorem Kernel.memmove_moved {mem : Mem} {dst src : Addr} {n : BitVec 32}
    (hd : NoWrap dst n.toNat) (hs : NoWrap src n.toNat) :
    Moved mem dst src n.toNat (memmove mem dst src n).2 := by
  have hwidth : n.setWidth 64 = BitVec.ofNat 64 n.toNat := by
    apply BitVec.eq_of_toNat_eq
    simp
  unfold memmove
  rw [hwidth]
  by_cases h0 : n = 0
  · rw [if_pos h0, h0]
    exact ⟨fun k hk => absurd hk (Nat.not_lt_zero k), fun _ _ => rfl⟩
  rw [if_neg h0]
  have hpos : 0 < n.toNat := by
    rw [Nat.pos_iff_ne_zero]
    exact fun h => h0 (BitVec.eq_of_toNat_eq h)
  by_cases hover : src < dst ∧ dst < src + BitVec.ofNat 64 n.toNat
  · rw [if_pos hover]
    exact copyDown_moved hd hs (BitVec.lt_def.1 hover.1).le
  · rw [if_neg hover]
    apply copyUp_moved hd hs
    by_contra hdir
    -- then the source begins first, so that its end is still an address
    refine hover ⟨BitVec.lt_def.2 (by omega), BitVec.lt_def.2 ?_⟩
    have hsum : (src + BitVec.ofNat 64 n.toNat).toNat = src.toNat + n.toNat := by
      unfold NoWrap at hd hs
      rw [BitVec.toNat_add, BitVec.toNat_ofNat, Nat.mod_eq_of_lt (show n.toNat < 2 ^ 64 by omega),
        Nat.mod_eq_of_lt (by omega)]
    omega

theorem User.memmove_moved {mem : Mem} {dst src : Addr} {n : BitVec 32}
    (hd : NoWrap dst n.toInt.toNat) (hs : NoWrap src n.toInt.toNat) :
    Moved mem dst src n.toInt.toNat (memmove mem dst src n).2 := by
  unfold memmove
  by_cases hlt : dst < src
  · rw [if_pos hlt]
    exact copyUp_moved hd hs (Or.inl (BitVec.lt_def.1 hlt).le)
  rw [if_neg hlt]
  rcases Nat.eq_zero_or_pos n.toInt.toNat with h0 | hpos
  · rw [h0]
    exact ⟨fun k hk => absurd hk (Nat.not_lt_zero k), fun _ _ => rfl⟩
  · have hwidth : n.signExtend 64 = BitVec.ofNat 64 n.toInt.toNat := by
      apply BitVec.eq_of_toInt_eq
      have hbound := n.toInt_lt
      rw [BitVec.toInt_signExtend_of_le (by decide), BitVec.toInt_ofNat',
        Int.bmod_eq_of_le (by omega) (by omega)]
      omega
    rw [hwidth]
    exact copyDown_moved hd hs (Nat.le_of_not_lt fun h => hlt (BitVec.lt_def.2 h))

/-- Both versions move the bytes however the two regions overlap, and leave the same memory. The
length is what the type of `n` makes of it: `uint` in the kernel, `int` in the library. -/
theorem memmove_moves (mem : Mem) (dst src : Addr) (n : BitVec 32) :
    (NoWrap dst n.toNat → NoWrap src n.toNat →
      (Kernel.memmove mem dst src n).1 = dst ∧
        Moved mem dst src n.toNat (Kernel.memmove mem dst src n).2) ∧
    (NoWrap dst n.toInt.toNat → NoWrap src n.toInt.toNat →
      (User.memmove mem dst src n).1 = dst ∧
        Moved mem dst src n.toInt.toNat (User.memmove mem dst src n).2) ∧
    (NoWrap dst n.toNat → NoWrap src n.toNat → 0 ≤ n.toInt →
      Kernel.memmove mem dst src n = User.memmove mem dst src n) := by
  have hkernel : (Kernel.memmove mem dst src n).1 = dst := by
    unfold Kernel.memmove
    split_ifs <;> rfl
  have huser : (User.memmove mem dst src n).1 = dst := by
    unfold User.memmove
    split_ifs <;> rfl
  refine ⟨fun hd hs => ⟨hkernel, Kernel.memmove_moved hd hs⟩,
    fun hd hs => ⟨huser, User.memmove_moved hd hs⟩, fun hd hs hpos => ?_⟩
  have hlen : n.toInt.toNat = n.toNat := by
    rw [BitVec.toInt_eq_toNat_of_msb (by rw [BitVec.msb_eq_toInt]; simpa using hpos)]
    simp
  have hmoved : Moved mem dst src n.toInt.toNat (User.memmove mem dst src n).2 :=
    User.memmove_moved (by rwa [hlen]) (by rwa [hlen])
  rw [hlen] at hmoved
  exact Prod.ext (hkernel.trans huser.symm) ((Kernel.memmove_moved hd hs).unique hmoved)

/-- Three bytes are moved up by one. -/
theorem memmove_moves_overlap :
    let mem : Mem := fun a => UInt8.ofNat a.toNat
    Kernel.memmove mem 2 1 3 = User.memmove mem 2 1 3 ∧ (User.memmove mem 2 1 3).2 4 = 3 :=
  ⟨(memmove_moves _ 2 1 3).2.2 (by unfold NoWrap; decide) (by unfold NoWrap; decide) (by decide),
    by decide⟩

end Xv6
