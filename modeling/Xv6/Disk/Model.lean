import Mathlib.Data.Finset.Insert
import Mathlib.Data.List.FinRange
import Xv6.Disk.Format
import Xv6.Lib.Program

/-!
The lower half of fs.c: the block allocator, the inodes on the disk and their content, above the
buffer cache and the log. One operation runs at a time, and `log_write` and the commit are taken from
the log: a block that has been logged stays in the cache until the commit writes it home, any other
block may leave the cache between two operations and is then read again from its home. Transactions
are taken to fit the log, so that `log_write` does not panic.
-/
namespace Xv6.Disk
open Bytes Bitmap Function Program

abbrev Byte := UInt8

structure State where
  /-- What `bread` finds. -/
  cache : ℕ → Block
  /-- What the disk holds outside the log. -/
  home : ℕ → Block
  /-- The blocks of the transaction that has not been committed. -/
  logged : Finset ℕ
  /-- The entries of the inode table that are valid, by the number of their inode. -/
  table : ℕ → Option Dinode

abbrev DiskM := Prog State Stop

def panic {α : Type} (p : Panic) : DiskM α := throw (.panic p)

def bread (b : ℕ) : DiskM Block := do return (← get).cache b

/-- Change the data of a buffer. -/
def bmodify (b : ℕ) (f : Block → Block) : DiskM Unit :=
  modify fun s => { s with cache := update s.cache b (f (s.cache b)) }

def logWrite (b : ℕ) : DiskM Unit := modify fun s => { s with logged := insert b s.logged }

/-- The copy of an inode that its holder has locked. -/
def inode (i : ℕ) : DiskM Dinode := do
  match (← get).table i with
  | some ip => return ip
  | none => throw .blocked

def setInode (i : ℕ) (ip : Dinode) : DiskM Unit :=
  modify fun s => { s with table := update s.table i (some ip) }

def bzero (bno : ℕ) : DiskM Unit := do
  bmodify bno fun _ _ => 0
  logWrite bno

section superblock
variable (sb : SuperBlock)

/-- The first clear bit among those that block `b` of the outer loop of `balloc` looks at. -/
def findClear (blk : Block) (b : ℕ) : Option ℕ :=
  (List.range (min bpb (sb.size - b))).find? fun bi => !bit blk bi

/-- `balloc` from the given bitmap blocks on, each given by the first block it describes. -/
def ballocFrom : List ℕ → DiskM ℕ
  | [] => panic .balloc
  | b :: bs => do
    let blk ← bread (sb.bblock b)
    match findClear sb blk b with
    | some bi =>
      bmodify (sb.bblock b) fun blk => setBit blk bi
      logWrite (sb.bblock b)
      bzero (b + bi)
      return b + bi
    | none => ballocFrom bs

def balloc : DiskM ℕ := ballocFrom sb ((List.range ((sb.size + bpb - 1) / bpb)).map (· * bpb))

def bfree (b : ℕ) : DiskM Unit := do
  let blk ← bread (sb.bblock b)
  if bit blk (b % bpb) then
    bmodify (sb.bblock b) fun blk => clearBit blk (b % bpb)
    logWrite (sb.bblock b)
  else panic .bfree

/-- The search of `ialloc` through the inodes with the given numbers. -/
def iallocFrom (type : Int16) : List ℕ → DiskM ℕ
  | [] => panic .ialloc
  | inum :: inums => do
    let blk ← bread (sb.iblock inum)
    if (Dinode.load blk (inum % ipb * dinodeSize)).type = 0 then
      bmodify (sb.iblock inum) fun blk => (Dinode.new type).store blk (inum % ipb * dinodeSize)
      logWrite (sb.iblock inum)
      return inum
    else iallocFrom type inums

def ialloc (type : Int16) : DiskM ℕ := iallocFrom sb type (List.range' 1 (sb.ninodes - 1))

def iupdate (i : ℕ) : DiskM Unit := do
  let ip ← inode i
  bmodify (sb.iblock i) fun blk => ip.store blk (i % ipb * dinodeSize)
  logWrite (sb.iblock i)

/-- What `create`, `sys_link` and `sys_unlink` do to the fields of a locked inode. -/
def setAttrs (i : ℕ) (major minor nlink : Int16) : DiskM Unit := do
  let ip ← inode i
  setInode i { ip with major := major, minor := minor, nlink := nlink }
  iupdate sb i

/-- What `ilock` does with an entry that it has locked. -/
def iload (i : ℕ) : DiskM Unit := do
  match (← get).table i with
  | some _ => return
  | none =>
    let blk ← bread (sb.iblock i)
    let ip := Dinode.load blk (i % ipb * dinodeSize)
    setInode i ip
    if ip.type = 0 then panic .ilockNoType
    else return

/-- The entry of `addrs` for the indirect block. -/
abbrev indirectSlot : Fin (ndirect + 1) := Fin.last ndirect

/-- A block number in an indirect block. -/
def indirectEntry (a : Block) (j : ℕ) : ℕ := getLE a (4 * j) 4

/-- The block at `addrs[k]`, allocated if there is none. -/
def bmapSlot (i : ℕ) (k : Fin (ndirect + 1)) : DiskM ℕ := do
  let ip ← inode i
  if ip.addrs k = 0 then
    let addr ← balloc sb
    setInode i (ip.setAddr k addr)
    return addr
  else return ip.addrs k

/-- The block at entry `j` of the indirect block `ind`, allocated if there is none. -/
def bmapEntry (ind j : ℕ) : DiskM ℕ := do
  let a ← bread ind
  if indirectEntry a j = 0 then
    let addr ← balloc sb
    bmodify ind fun a => setLE a (4 * j) 4 addr
    logWrite ind
    return addr
  else return indirectEntry a j

def bmap (i bn : ℕ) : DiskM ℕ := do
  if h : bn < ndirect then bmapSlot sb i ⟨bn, Nat.lt_succ_of_lt h⟩
  else if bn - ndirect < nindirect then
    let ind ← bmapSlot sb i indirectSlot
    bmapEntry sb ind (bn - ndirect)
  else panic .bmap

/-- One round of the first loop of `itrunc`. -/
def truncSlot (i : ℕ) (k : Fin (ndirect + 1)) : DiskM Unit := do
  let ip ← inode i
  if ip.addrs k = 0 then return
  else
    bfree sb (ip.addrs k)
    setInode i (ip.setAddr k 0)

def truncSlots (i : ℕ) : List (Fin (ndirect + 1)) → DiskM Unit
  | [] => return
  | k :: ks => do
    truncSlot sb i k
    truncSlots i ks

/-- The second loop of `itrunc`, which frees the blocks that the indirect block `ind` names. -/
def freeEntries (ind : ℕ) : List ℕ → DiskM Unit
  | [] => return
  | j :: js => do
    let a ← bread ind
    if indirectEntry a j = 0 then freeEntries ind js
    else
      bfree sb (indirectEntry a j)
      freeEntries ind js

def truncIndirect (i : ℕ) : DiskM Unit := do
  let ip ← inode i
  if ip.addrs indirectSlot = 0 then return
  else
    freeEntries sb (ip.addrs indirectSlot) (List.range nindirect)
    truncSlot sb i indirectSlot

def itrunc (i : ℕ) : DiskM Unit := do
  truncSlots sb i ((List.finRange ndirect).map Fin.castSucc)
  truncIndirect sb i
  let ip ← inode i
  setInode i { ip with size := 0 }
  iupdate sb i

/-- The part of `iput` that frees the inode. -/
def ifree (i : ℕ) : DiskM Unit := do
  itrunc sb i
  let ip ← inode i
  setInode i { ip with type := 0 }
  iupdate sb i
  modify fun s => { s with table := update s.table i none }

/-- The bytes of the next chunk, which does not go beyond its block. -/
def chunk (off left : ℕ) : ℕ := min left (bsize - off % bsize)

theorem chunk_pos {off left : ℕ} (h : 0 < left) : 0 < chunk off left := by
  have hmod : off % bsize < bsize := Nat.mod_lt _ (by decide)
  exact lt_min h (Nat.sub_pos_of_lt hmod)

/-- The loop of `readi` for the `left` bytes that are still to be read at `off`, the next of which
goes to offset `tot` of the destination. The destination takes the bytes up to the first one that
cannot be stored. The bytes stored, and whether the copy failed. -/
def readLoop (i : ℕ) (dst : ℕ → Bool) (off tot left : ℕ) : DiskM (List Byte × Bool) := do
  if _h : 0 < left then
    let b ← bmap sb i (off / bsize)
    let blk ← bread b
    let m := chunk off left
    let bs := read blk (off % bsize) m
    match (List.range m).find? fun k => !dst (tot + k) with
    | some k => return (bs.take k, true)
    | none =>
      let (rest, failed) ← readLoop i dst (off + m) (tot + m) (left - m)
      return (bs ++ rest, failed)
  else return ([], false)
termination_by left
decreasing_by exact Nat.sub_lt ‹0 < left› (chunk_pos ‹0 < left›)

/-- `readi`: the bytes stored at the destination, and the value returned, where `none` is -1. -/
def readi (i : ℕ) (dst : ℕ → Bool) (off n : UInt32) : DiskM (List Byte × Option ℕ) := do
  let ip ← inode i
  if ip.size < off.toNat ∨ off + n < off then return ([], some 0)
  else
    let n := if ip.size < off.toNat + n.toNat then ip.size - off.toNat else n.toNat
    let (bs, failed) ← readLoop sb i dst off.toNat 0 n
    return (bs, if failed then none else some bs.length)

/-- The bytes that `either_copyin` copies of the `m` at offset `tot` of the source: all of them, or
those before the first one that cannot be read. -/
def copied (src : ℕ → Option Byte) (tot m : ℕ) : List Byte :=
  ((List.range m).map fun k => src (tot + k)).takeWhile Option.isSome |>.filterMap id

/-- The loop of `writei` for the `left` bytes that are still to be written at `off`, the next of
which is at offset `tot` of the source. The number of bytes written. -/
def writeLoop (i : ℕ) (src : ℕ → Option Byte) (off tot left : ℕ) : DiskM ℕ := do
  if _h : 0 < left then
    let b ← bmap sb i (off / bsize)
    let m := chunk off left
    -- a copy that fails has changed the buffer all the same
    bmodify b fun blk => write blk (off % bsize) (copied src tot m)
    if (copied src tot m).length < m then return tot
    else
      logWrite b
      writeLoop i src (off + m) (tot + m) (left - m)
  else return tot
termination_by left
decreasing_by exact Nat.sub_lt ‹0 < left› (chunk_pos ‹0 < left›)

/-- What `writei` does after its loop has ended at `off`. -/
def writeEnd (i off : ℕ) : DiskM Unit := do
  let ip ← inode i
  setInode i { ip with size := max ip.size off }
  iupdate sb i

/-- `writei`, where `none` is -1. -/
def writei (i : ℕ) (src : ℕ → Option Byte) (off n : UInt32) : DiskM (Option ℕ) := do
  let ip ← inode i
  if ip.size < off.toNat ∨ off + n < off then return none
  else if maxfile * bsize < off.toNat + n.toNat then return none
  else
    let tot ← writeLoop sb i src off.toNat 0 n.toNat
    writeEnd sb i (off.toNat + tot)
    return some tot

end superblock
end Xv6.Disk
