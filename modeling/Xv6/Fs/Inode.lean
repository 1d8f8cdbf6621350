import Mathlib.Logic.Function.Basic
import Xv6.Lib.Program
import Xv6.Param

/-!
Inodes and the inode table, fs.c. The content of a file is a list of bytes, which stands for the
fields `size` and `addrs` and the blocks behind them. Of the table only the entries with a reference
matter, and no two of them are for the same inode, so an entry is found by the number of its inode.
One operation runs at a time: to wait for a lock is to wait for oneself.
-/
namespace Xv6.Fs
open Program

abbrev Byte := UInt8

/-- Entries of the inode table. -/
abbrev ninode : ℕ := 50

/-- The number of the root directory. -/
abbrev rootino : ℕ := 1

/-- Bytes in the largest file, `MAXFILE*BSIZE`. -/
abbrev maxFileSize : ℕ := (12 + 256) * bsize

inductive InodeType where
  | free
  | dir
  | file
  | device
  deriving DecidableEq, Repr

/-- What `struct dinode` and `struct inode` have in common. -/
structure Inode where
  type : InodeType
  major : Int16
  minor : Int16
  nlink : Int16
  content : List Byte
  deriving DecidableEq, Repr

/-- An entry of the inode table, with its copy of the inode. -/
structure Slot where
  ref : ℕ
  valid : Bool
  locked : Bool
  inode : Inode
  deriving DecidableEq, Repr

structure Volume where
  ninodes : ℕ
  disk : ℕ → Inode
  table : ℕ → Slot

abbrev FsM := Prog Volume Stop

def panic {α : Type} (p : Panic) : FsM α := throw (.panic p)

/-- The entries of the table that are in use. -/
def Volume.inUse (v : Volume) : ℕ := (List.range v.ninodes).countP fun i => 0 < (v.table i).ref

def Volume.setSlot (v : Volume) (i : ℕ) (sl : Slot) : Volume :=
  { v with table := Function.update v.table i sl }

def Volume.setDisk (v : Volume) (i : ℕ) (d : Inode) : Volume :=
  { v with disk := Function.update v.disk i d }

section fields
variable (v : Volume) (i j : ℕ) (sl sl' : Slot) (d d' : Inode)

@[simp] theorem Volume.setSlot_self : (v.setSlot i sl).table i = sl := Function.update_self ..

@[simp] theorem Volume.setSlot_disk : (v.setSlot i sl).disk = v.disk := rfl

@[simp] theorem Volume.setSlot_setSlot : (v.setSlot i sl).setSlot i sl' = v.setSlot i sl' := by
  simp [Volume.setSlot]

@[simp] theorem Volume.setDisk_table : (v.setDisk i d).table = v.table := rfl

@[simp] theorem Volume.setDisk_self : (v.setDisk i d).disk i = d := Function.update_self ..

@[simp] theorem Volume.setDisk_setDisk : (v.setDisk i d).setDisk i d' = v.setDisk i d' := by
  simp [Volume.setDisk]

@[simp] theorem Volume.setSlot_setDisk :
    (v.setDisk j d).setSlot i sl = (v.setSlot i sl).setDisk j d := rfl

end fields

def getSlot (i : ℕ) : FsM Slot := do return (← get).table i

def setSlot (i : ℕ) (sl : Slot) : FsM Unit := modify fun v => v.setSlot i sl

/-- Change the copy of the inode in the table. -/
def modifyInode (i : ℕ) (f : Inode → Inode) : FsM Unit := do
  let sl ← getSlot i
  setSlot i { sl with inode := f sl.inode }

def iupdate (i : ℕ) : FsM Unit := do
  let sl ← getSlot i
  modify fun v => v.setDisk i sl.inode

def iget (i : ℕ) : FsM ℕ := do
  let v ← get
  let sl := v.table i
  if 0 < sl.ref then
    setSlot i { sl with ref := sl.ref + 1 }
    return i
  else if v.inUse < ninode then
    -- recycle an entry that nobody refers to, and so nobody has locked
    setSlot i { sl with ref := 1, valid := false, locked := false }
    return i
  else panic .iget

def idup (i : ℕ) : FsM ℕ := do
  let sl ← getSlot i
  setSlot i { sl with ref := sl.ref + 1 }
  return i

def acquiresleep (i : ℕ) : FsM Unit := do
  let sl ← getSlot i
  if sl.locked then throw .blocked
  else setSlot i { sl with locked := true }

def releasesleep (i : ℕ) : FsM Unit := do
  let sl ← getSlot i
  setSlot i { sl with locked := false }

def ilock (i : ℕ) : FsM Unit := do
  if (← getSlot i).ref < 1 then panic .ilock
  else
    acquiresleep i
    let sl ← getSlot i
    if sl.valid then return
    else
      let d := (← get).disk i
      setSlot i { sl with valid := true, inode := d }
      if d.type = .free then panic .ilockNoType
      else return

def iunlock (i : ℕ) : FsM Unit := do
  let sl ← getSlot i
  if !sl.locked || sl.ref < 1 then panic .iunlock
  else releasesleep i

def itrunc (i : ℕ) : FsM Unit := do
  modifyInode i fun d => { d with content := [] }
  iupdate i

/-- The part of `iput` that frees the inode. -/
def ifree (i : ℕ) : FsM Unit := do
  acquiresleep i
  itrunc i
  modifyInode i fun d => { d with type := .free }
  iupdate i
  let sl ← getSlot i
  setSlot i { sl with valid := false }
  releasesleep i

def iput (i : ℕ) : FsM Unit := do
  let sl ← getSlot i
  if sl.ref = 1 ∧ sl.valid ∧ sl.inode.nlink = 0 then ifree i
  let sl ← getSlot i
  setSlot i { sl with ref := sl.ref - 1 }

def iunlockput (i : ℕ) : FsM Unit := do
  iunlock i
  iput i

/-- The search of `ialloc` through the inodes with the given numbers. -/
def iallocFrom (type : InodeType) : List ℕ → FsM ℕ
  | [] => panic .ialloc
  | inum :: inums => do
    if ((← get).disk inum).type = .free then
      modify fun v => v.setDisk inum ⟨type, 0, 0, 0, []⟩
      iget inum
    else iallocFrom type inums

def ialloc (type : InodeType) : FsM ℕ := do
  let v ← get
  iallocFrom type (List.range' 1 (v.ninodes - 1))

/-- `readi` into the kernel: the bytes it delivers. -/
def readi (i off n : ℕ) : FsM (List Byte) := do
  let c := (← getSlot i).inode.content
  if c.length < off ∨ (off + n) % 2 ^ 32 < off then return []
  else return (c.drop off).take n

/-- `writei` from the kernel, on a disk with room; `none` is -1. -/
def writei (i off : ℕ) (bs : List Byte) : FsM (Option ℕ) := do
  let c := (← getSlot i).inode.content
  if c.length < off ∨ (off + bs.length) % 2 ^ 32 < off then return none
  else if maxFileSize < off + bs.length then return none
  else
    modifyInode i fun d =>
      { d with content := c.take off ++ bs ++ c.drop (off + bs.length) }
    iupdate i
    return some bs.length

end Xv6.Fs
