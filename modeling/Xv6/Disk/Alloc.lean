import Xv6.Disk.View
import Xv6.Lib.Owners

/-! What the block allocator and the updates of inodes do to the blocks in use, the inodes and the
data blocks. -/
namespace Xv6.Disk
open Bytes Bitmap Function Program

/-- Replace the copy of an inode in the table. -/
def State.hold (s : State) (i : ℕ) (ip : Option Dinode) : State :=
  { s with table := update s.table i ip }

section primitives
variable {E : Stop → Prop} {s : State} {b i : ℕ} {ip : Dinode}

@[simp] theorem wp_bread {Q : Block → State → Prop} : wp (bread b) E s Q ↔ Q (s.cache b) s := by
  simp [bread]

variable {Q : Unit → State → Prop}

@[simp] theorem wp_bmodify {f : Block → Block} :
    wp (bmodify b f) E s Q ↔ Q () (s.put b (f (s.cache b))) := wp_modify ..

@[simp] theorem wp_logWrite : wp (logWrite b) E s Q ↔ Q () (s.log b) :=
  wp_modify ..

@[simp] theorem wp_setInode :
    wp (setInode i ip) E s Q ↔ Q () (s.hold i (some ip)) := wp_modify ..

theorem wp_inode {Q : Dinode → State → Prop} (h : s.table i = some ip) :
    wp (inode i) E s Q ↔ Q ip s := by
  simp [inode, h]

theorem wp_inode_none {Q : Dinode → State → Prop} (h : s.table i = none) :
    wp (inode i) E s Q ↔ E .blocked := by
  simp [inode, h]

@[simp] theorem State.put_cache (blk : Block) : (s.put b blk).cache = update s.cache b blk := rfl

@[simp] theorem State.log_cache : (s.log b).cache = s.cache := rfl

@[simp] theorem State.hold_self (o : Option Dinode) : (s.hold i o).table i = o := update_self ..

theorem view_hold (sb : SuperBlock) (o : Option Dinode) :
    view sb (s.hold i o) = { view sb s with table := update (view sb s).table i o } := rfl

theorem grows_hold (o : Option Dinode) (X : Finset ℕ) : Grows s (s.hold i o) X :=
  (Grows.refl s X).table _

end primitives

section alloc
variable {sb : SuperBlock} {E : Stop → Prop} {s : State} {b : ℕ}

theorem findClear_some {blk : Block} {bi : ℕ} (h : findClear sb blk b = some bi) :
    bi < bpb ∧ b + bi < sb.size ∧ bit blk bi = false := by
  have hclear := List.find?_some h
  have hmem := List.mem_range.1 (List.mem_of_find?_eq_some h)
  refine ⟨hmem.trans_le (min_le_left ..), ?_, by simpa using hclear⟩
  have hlt := hmem.trans_le (min_le_right ..)
  omega

theorem add_mod_bpb {bi : ℕ} (hb : b % bpb = 0) (hbi : bi < bpb) : (b + bi) % bpb = bi := by
  rw [Nat.add_mod, hb, Nat.zero_add, Nat.mod_mod, Nat.mod_eq_of_lt hbi]

theorem bblock_add {bi : ℕ} (hb : b % bpb = 0) (hbi : bi < bpb) :
    sb.bblock (b + bi) = sb.bblock b := by
  simp only [bpb, bsize] at hb hbi
  simp only [SuperBlock.bblock, bpb, bsize]
  omega

/-- A block that `balloc` may return. -/
structure Free (sb : SuperBlock) (V : View) (b : ℕ) : Prop where
  unused : V.used b = false
  lt : b < sb.size

/-- The state after `balloc`: the block taken is empty and has no owner yet. -/
structure Taken (sb : SuperBlock) (s s' : State) (b : ℕ) : Prop where
  free : Free sb (view sb s) b
  data : sb.datastart ≤ b
  view_eq : view sb s' = { view sb s with
    used := update (view sb s).used b true
    data := update (view sb s).data b fun _ => 0 }
  logged : b ∈ s'.logged
  grows : Grows s s' {sb.bblock b, b}

theorem wp_ballocFrom (bs : List ℕ) (hbs : ∀ b ∈ bs, b % bpb = 0) (hE : E (.panic .balloc))
    (hmeta : ∀ b < sb.datastart, (view sb s).used b = true) :
    wp (ballocFrom sb bs) E s fun b s' => Taken sb s s' b := by
  induction bs with
  | nil => simpa [ballocFrom, panic] using hE
  | cons b₀ bs ih =>
    rw [ballocFrom, wp_bind, wp_bread]
    cases hfind : findClear sb (s.cache (sb.bblock b₀)) b₀ with
    | none => exact ih fun b hb => hbs b (List.mem_cons_of_mem _ hb)
    | some bi =>
      obtain ⟨hbi, hlt, hclear⟩ := findClear_some hfind
      have hzero : b₀ % bpb = 0 := hbs b₀ List.mem_cons_self
      have hblock : sb.bblock (b₀ + bi) = sb.bblock b₀ := bblock_add hzero hbi
      have hmod : (b₀ + bi) % bpb = bi := add_mod_bpb hzero hbi
      have hunused : (view sb s).used (b₀ + bi) = false := by
        simp only [view, usedIn, hblock, hmod, hclear, Bool.and_false]
      have hdata : sb.datastart ≤ b₀ + bi := by
        by_contra hlow
        rw [hmeta (b₀ + bi) (by omega)] at hunused
        contradiction
      simp only [bzero, wp_bind, wp_bmodify, wp_logWrite, wp_pure]
      refine ⟨⟨hunused, hlt⟩, hdata, ?_, Finset.mem_insert_self _ _, ?_⟩
      · rw [view_log, view_put_data _ hdata, view_log, ← hblock, view_put_bitmap _ hlt]
        rw [bit_setBit, hmod]
      · rw [hblock]
        exact (grows_put_log ..).trans (grows_put_log ..)

theorem wp_balloc (hE : E (.panic .balloc))
    (hmeta : ∀ b < sb.datastart, (view sb s).used b = true) :
    wp (balloc sb) E s fun b s' => Taken sb s s' b := by
  refine wp_ballocFrom _ (fun b hb => ?_) hE hmeta
  obtain ⟨k, -, rfl⟩ := List.mem_map.1 hb
  exact Nat.mul_mod_left ..

theorem wp_bfree (hlt : b < sb.size) (hused : (view sb s).used b = true) :
    wp (bfree sb b) E s fun _ s' =>
      view sb s' = { view sb s with used := update (view sb s).used b false } ∧
      (∀ c, sb.datastart ≤ c → s'.cache c = s.cache c) ∧ Grows s s' {sb.bblock b} := by
  have hbit : bit (s.cache (sb.bblock b)) (b % bpb) = true := by
    simpa [view, usedIn, hlt] using hused
  simp only [bfree, wp_bind, wp_bread, hbit, if_true, wp_bmodify, wp_logWrite]
  refine ⟨?_, fun c hc => ?_, grows_put_log ..⟩
  · rw [view_log, view_put_bitmap _ hlt]
    rw [bit_clearBit]
  · have hblock := sb.bblock_lt hlt
    rw [State.log_cache, State.put_cache, update_of_ne (by omega)]

/-- `iupdate` writes the copy in the table to the disk and leaves every other inode alone. -/
theorem wp_iupdate {i : ℕ} {ip : Dinode} (hi : i < sb.ninodes) (hip : s.table i = some ip)
    (hfits : ip.Fits) :
    wp (iupdate sb i) E s fun _ s' =>
      view sb s' = { view sb s with node := update (view sb s).node i ip } ∧
      Grows s s' {sb.iblock i} := by
  simp only [iupdate, wp_bind, wp_inode hip, wp_bmodify, wp_logWrite]
  exact ⟨by rw [view_log, view_put_inode _ hi hfits], grows_put_log ..⟩

end alloc
end Xv6.Disk
