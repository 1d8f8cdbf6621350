import Mathlib.Data.List.OfFn
import Mathlib.Algebra.Order.Ring.Nat
import Xv6.Lib.Bitmap
import Xv6.Param

/-! The on-disk format of fs.h: the regions that the superblock gives, and the inodes that share the
inode blocks. -/
namespace Xv6.Disk
open Bytes Bitmap Function

/-- A disk block is the bytes of `b->data`. -/
abbrev Block := Buf

abbrev ndirect : ℕ := 12

/-- Block numbers in an indirect block, `BSIZE / sizeof(uint)`. -/
abbrev nindirect : ℕ := bsize / 4

/-- Blocks in the largest file. -/
abbrev maxfile : ℕ := ndirect + nindirect

/-- `sizeof(struct dinode)`. -/
abbrev dinodeSize : ℕ := 64

/-- Inodes per block. -/
abbrev ipb : ℕ := bsize / dinodeSize

/-- Bitmap bits per block. -/
abbrev bpb : ℕ := bsize * 8

/-- The fields of `struct superblock` that fs.c uses. As `mkfs` lays the disk out, the inode blocks
come before the bitmap and the bitmap before the data blocks. -/
structure SuperBlock where
  size : ℕ
  ninodes : ℕ
  inodestart : ℕ
  bmapstart : ℕ
  inodes_lt : inodestart + ninodes / ipb < bmapstart
  size_lt : size < 2 ^ 31

namespace SuperBlock
variable (sb : SuperBlock)

/-- Block containing inode `i`. -/
def iblock (i : ℕ) : ℕ := i / ipb + sb.inodestart

/-- Block of the free map containing the bit for block `b`. -/
def bblock (b : ℕ) : ℕ := b / bpb + sb.bmapstart

/-- The first data block; `mkfs` gives the bitmap `size / BPB + 1` blocks. -/
def datastart : ℕ := sb.bmapstart + (sb.size / bpb + 1)

variable {sb}

theorem iblock_lt {i : ℕ} (h : i < sb.ninodes) : sb.iblock i < sb.bmapstart := by
  have hle : i / ipb ≤ sb.ninodes / ipb := Nat.div_le_div_right h.le
  have hlt := sb.inodes_lt
  unfold iblock
  omega

theorem bmapstart_le_bblock (b : ℕ) : sb.bmapstart ≤ sb.bblock b := Nat.le_add_left ..

theorem bblock_lt {b : ℕ} (h : b < sb.size) : sb.bblock b < sb.datastart := by
  have hle : b / bpb ≤ sb.size / bpb := Nat.div_le_div_right h.le
  unfold bblock datastart
  omega

theorem bmapstart_lt_datastart : sb.bmapstart < sb.datastart :=
  Nat.lt_add_of_pos_right (Nat.succ_pos _)

end SuperBlock

/-- Store words from `off` on. -/
def setWords (blk : Block) (off : ℕ) : List ℕ → Block
  | [] => blk
  | w :: ws => setWords (setLE blk off 4 w) (off + 4) ws

variable (blk : Block)

theorem setWords_outside {off k : ℕ} (ws : List ℕ)
    (h : k < off ∨ off + 4 * ws.length ≤ k) : setWords blk off ws k = blk k := by
  induction ws generalizing blk off with
  | nil => rfl
  | cons w ws ih =>
    rw [List.length_cons] at h
    rw [setWords, ih _ (by omega), setLE_outside _ _ (by omega)]

theorem getLE_setWords_disjoint {off off' w : ℕ} (ws : List ℕ)
    (h : off' + w ≤ off ∨ off + 4 * ws.length ≤ off') :
    getLE (setWords blk off ws) off' w = getLE blk off' w := by
  apply getLE_congr
  intro k hk hk'
  exact setWords_outside blk ws (by omega)

theorem getLE_setWords (off : ℕ) (ws : List ℕ) (j : ℕ) (hj : j < ws.length) :
    getLE (setWords blk off ws) (off + 4 * j) 4 = ws[j] % 2 ^ 32 := by
  induction ws generalizing blk off j with
  | nil => exact absurd hj (Nat.not_lt_zero j)
  | cons w ws ih =>
    rw [setWords]
    cases j with
    | zero =>
      rw [Nat.mul_zero, Nat.add_zero off, getLE_setWords_disjoint _ _ (by omega), getLE_setLE_self]
      rfl
    | succ j =>
      have hoff : off + 4 * (j + 1) = off + 4 + 4 * j := by omega
      rw [hoff, ih _ _ j (by simpa using hj), List.getElem_cons_succ]

def getShort (blk : Block) (off : ℕ) : Int16 := (UInt16.ofNat (getLE blk off 2)).toInt16

def setShort (blk : Block) (off : ℕ) (x : Int16) : Block := setLE blk off 2 x.toUInt16.toNat

@[simp] theorem getShort_setShort (off : ℕ) (x : Int16) :
    getShort (setShort blk off x) off = x := by
  have hlt : x.toUInt16.toNat < 256 ^ 2 := x.toUInt16.toNat_lt
  rw [getShort, setShort, getLE_setLE_self, Nat.mod_eq_of_lt hlt, UInt16.ofNat_toNat,
    Int16.toInt16_toUInt16]

/-- `struct dinode`, of which `struct inode` has a copy. -/
structure Dinode where
  type : Int16
  major : Int16
  minor : Int16
  nlink : Int16
  size : ℕ
  addrs : Fin (ndirect + 1) → ℕ

/-- The inode without content that `ialloc` makes, of the given type. -/
def Dinode.new (type : Int16) : Dinode := ⟨type, 0, 0, 0, 0, fun _ => 0⟩

def Dinode.setAddr (d : Dinode) (k : Fin (ndirect + 1)) (b : ℕ) : Dinode :=
  { d with addrs := update d.addrs k b }

/-- The values of the fields that are a `uint`. -/
structure Dinode.Fits (d : Dinode) : Prop where
  size : d.size < 2 ^ 32
  addrs : ∀ k, d.addrs k < 2 ^ 32

/-- The inode stored at `off`. -/
def Dinode.load (blk : Block) (off : ℕ) : Dinode where
  type := getShort blk off
  major := getShort blk (off + 2)
  minor := getShort blk (off + 4)
  nlink := getShort blk (off + 6)
  size := getLE blk (off + 8) 4
  addrs k := getLE blk (off + 12 + 4 * k) 4

def Dinode.store (blk : Block) (off : ℕ) (d : Dinode) : Block :=
  let blk := setShort blk off d.type
  let blk := setShort blk (off + 2) d.major
  let blk := setShort blk (off + 4) d.minor
  let blk := setShort blk (off + 6) d.nlink
  let blk := setLE blk (off + 8) 4 d.size
  setWords blk (off + 12) (List.ofFn d.addrs)

theorem Dinode.store_outside {off k : ℕ} (d : Dinode)
    (h : k < off ∨ off + dinodeSize ≤ k) : d.store blk off k = blk k := by
  simp only [dinodeSize] at h
  unfold Dinode.store setShort
  rw [setWords_outside _ _ (by rw [List.length_ofFn]; simp only [ndirect]; omega),
    setLE_outside _ _ (by omega), setLE_outside _ _ (by omega), setLE_outside _ _ (by omega),
    setLE_outside _ _ (by omega), setLE_outside _ _ (by omega)]

theorem Dinode.load_congr {f g : Block} {off : ℕ}
    (h : ∀ k, off ≤ k → k < off + dinodeSize → f k = g k) : Dinode.load f off = Dinode.load g off := by
  simp only [dinodeSize] at h
  have hget : ∀ o w, off ≤ o → o + w ≤ off + 64 → getLE f o w = getLE g o w := by
    intro o w ho hw
    exact getLE_congr fun k hk hk' => h k (by omega) (by omega)
  have haddrs : ∀ k : Fin (ndirect + 1),
      getLE f (off + 12 + 4 * k) 4 = getLE g (off + 12 + 4 * k) 4 := by
    intro k
    have hk : k.val < 13 := k.isLt
    exact hget _ 4 (by omega) (by omega)
  simp only [Dinode.load, getShort, hget off 2 (by omega) (by omega),
    hget (off + 2) 2 (by omega) (by omega), hget (off + 4) 2 (by omega) (by omega),
    hget (off + 6) 2 (by omega) (by omega), hget (off + 8) 4 (by omega) (by omega), haddrs]

theorem getShort_setLE_disjoint {off off' w : ℕ} (v : ℕ) (h : off + w ≤ off' ∨ off' + 2 ≤ off) :
    getShort (setLE blk off w v) off' = getShort blk off' := by
  rw [getShort, getLE_setLE_disjoint _ _ h, getShort]

theorem getShort_setShort_disjoint {off off' : ℕ} (x : Int16) (h : off + 2 ≤ off' ∨ off' + 2 ≤ off) :
    getShort (setShort blk off x) off' = getShort blk off' :=
  getShort_setLE_disjoint blk _ h

theorem getShort_setWords {off off' : ℕ} (ws : List ℕ) (h : off' + 2 ≤ off) :
    getShort (setWords blk off ws) off' = getShort blk off' := by
  rw [getShort, getLE_setWords_disjoint _ _ (.inl h), getShort]

/-- What `iupdate` stores is what `ilock` loads. -/
theorem Dinode.load_store (off : ℕ) {d : Dinode} (h : d.Fits) :
    Dinode.load (d.store blk off) off = d := by
  have haddrs : ∀ k : Fin (ndirect + 1), getLE (d.store blk off) (off + 12 + 4 * k) 4 = d.addrs k := by
    intro k
    have hlen : k.val < (List.ofFn d.addrs).length := by rw [List.length_ofFn]; exact k.isLt
    rw [Dinode.store, getLE_setWords _ _ _ _ hlen, List.getElem_ofFn, Nat.mod_eq_of_lt (h.addrs _)]
  have hsize : getLE (d.store blk off) (off + 8) 4 = d.size := by
    rw [Dinode.store, getLE_setWords_disjoint _ _ (by omega), getLE_setLE_self]
    exact Nat.mod_eq_of_lt h.size
  have hnlink : getShort (d.store blk off) (off + 6) = d.nlink := by
    rw [Dinode.store, getShort_setWords _ _ (by omega), getShort_setLE_disjoint _ _ (by omega),
      getShort_setShort]
  have hminor : getShort (d.store blk off) (off + 4) = d.minor := by
    rw [Dinode.store, getShort_setWords _ _ (by omega), getShort_setLE_disjoint _ _ (by omega),
      getShort_setShort_disjoint _ _ (by omega), getShort_setShort]
  have hmajor : getShort (d.store blk off) (off + 2) = d.major := by
    rw [Dinode.store, getShort_setWords _ _ (by omega), getShort_setLE_disjoint _ _ (by omega),
      getShort_setShort_disjoint _ _ (by omega), getShort_setShort_disjoint _ _ (by omega),
      getShort_setShort]
  have htype : getShort (d.store blk off) off = d.type := by
    rw [Dinode.store, getShort_setWords _ _ (by omega), getShort_setLE_disjoint _ _ (by omega),
      getShort_setShort_disjoint _ _ (by omega), getShort_setShort_disjoint _ _ (by omega),
      getShort_setShort_disjoint _ _ (by omega), getShort_setShort]
  rw [Dinode.load, htype, hmajor, hminor, hnlink, hsize, funext haddrs]

end Xv6.Disk
