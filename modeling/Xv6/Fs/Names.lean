import Mathlib.Data.Int.Notation
import Mathlib.Data.List.Basic
import Xv6.Fs.Inode

/-! Directories and path names, fs.c. Strings are lists of bytes that end with their first zero, or
with the list. -/
namespace Xv6.Fs
open Program

/-- Bytes of a name in a directory. -/
abbrev dirsiz : ℕ := 14

/-- `sizeof(struct dirent)` -/
abbrev direntSize : ℕ := 16

def slash : Byte := 47

/-- The character that a string pointer is at. -/
def front (s : List Byte) : Byte := s.headD 0

def strncmp : ℕ → List Byte → List Byte → ℤ
  | 0, _, _ => 0
  | n + 1, p, q =>
    if front p ≠ 0 ∧ front p = front q then strncmp n p.tail q.tail
    else ((front p).toNat : ℤ) - (front q).toNat

/-- What `strncpy` writes: always `n` bytes. -/
def strncpy : ℕ → List Byte → List Byte
  | 0, _ => []
  | n + 1, t => if front t = 0 then List.replicate (n + 1) 0 else front t :: strncpy n t.tail

def namecmp (s t : List Byte) : ℤ := strncmp dirsiz s t

structure Dirent where
  inum : ℕ
  name : List Byte
  deriving DecidableEq, Repr

def Dirent.ofBytes (bs : List Byte) : Dirent :=
  ⟨(bs.getD 0 0).toNat + 256 * (bs.getD 1 0).toNat, bs.drop 2⟩

/-- `inum` is an `unsigned short`. -/
def Dirent.toBytes (de : Dirent) : List Byte :=
  UInt8.ofNat de.inum :: UInt8.ofNat (de.inum / 256) :: de.name

/-- The values of `off` in a loop over the entries of a directory of this size. -/
def offsets (size : ℕ) : List ℕ :=
  (List.range ((size + direntSize - 1) / direntSize)).map (direntSize * ·)

/-- The loop of `dirlookup`. -/
def lookupFrom (dp : ℕ) (name : List Byte) : List ℕ → FsM (Option (ℕ × ℕ))
  | [] => return none
  | off :: offs => do
    let bs ← readi dp off direntSize
    if bs.length ≠ direntSize then panic .dirlookupRead
    else
      let de := Dirent.ofBytes bs
      if de.inum = 0 then lookupFrom dp name offs
      else if namecmp name de.name = 0 then
        let ip ← iget de.inum
        return some (ip, off)
      else lookupFrom dp name offs

/-- The inode with the name, and the offset of its entry. -/
def dirlookup (dp : ℕ) (name : List Byte) : FsM (Option (ℕ × ℕ)) := do
  let sl ← getSlot dp
  if sl.inode.type ≠ .dir then panic .dirlookupNotDir
  else lookupFrom dp name (offsets sl.inode.content.length)

/-- The loop of `dirlink` that looks for an empty entry; `after` is where it ends without one. -/
def emptyFrom (dp after : ℕ) : List ℕ → FsM ℕ
  | [] => return after
  | off :: offs => do
    let bs ← readi dp off direntSize
    if bs.length ≠ direntSize then panic .dirlinkRead
    else if (Dirent.ofBytes bs).inum = 0 then return off
    else emptyFrom dp after offs

/-- `false` is -1. -/
def dirlink (dp : ℕ) (name : List Byte) (inum : ℕ) : FsM Bool := do
  match ← dirlookup dp name with
  | some (ip, _) =>
    iput ip
    return false
  | none =>
    let size := (← getSlot dp).inode.content.length
    let after := direntSize * ((size + direntSize - 1) / direntSize)
    let off ← emptyFrom dp after (offsets size)
    let r ← writei dp off (Dirent.toBytes ⟨inum, strncpy dirsiz name⟩)
    if r ≠ some direntSize then panic .dirlink
    else return true

def skipSlashes (path : List Byte) : List Byte := path.dropWhile (· == slash)

/-- The character is part of a path element. -/
def inElem (c : Byte) : Bool := c != slash && c != 0

/-- The rest of the path and the buffer `name` with the next element; `none` is 0. -/
def skipelem (path name : List Byte) : Option (List Byte × List Byte) :=
  let path := skipSlashes path
  if front path = 0 then none
  else
    let s := path.takeWhile inElem
    let path := path.dropWhile inElem
    let name := if dirsiz ≤ s.length then s.take dirsiz else s ++ 0 :: name.drop (s.length + 1)
    some (skipSlashes path, name)

theorem front_skipSlashes (path : List Byte) (h : front (skipSlashes path) ≠ 0) :
    ∃ c cs, skipSlashes path = c :: cs ∧ inElem c := by
  unfold skipSlashes at h ⊢
  cases hp : path.dropWhile (· == slash) with
  | nil =>
    rw [hp] at h
    exact absurd rfl h
  | cons c cs =>
    rw [hp] at h
    have hne := List.head?_dropWhile_not (· == slash) path
    rw [hp] at hne
    refine ⟨c, cs, rfl, ?_⟩
    have hc : c ≠ slash := by simpa using hne
    have h0 : c ≠ 0 := h
    simp [inElem, hc, h0]

/-- A path element is at least one character long. -/
theorem skipelem_length {path name rest name' : List Byte}
    (h : skipelem path name = some (rest, name')) : rest.length < path.length := by
  unfold skipelem at h
  dsimp only at h
  split at h
  · contradiction
  · rename_i hfront
    obtain ⟨rfl, -⟩ := Prod.mk.inj (Option.some.inj h)
    obtain ⟨c, cs, hpath, hc⟩ := front_skipSlashes path hfront
    calc (skipSlashes ((skipSlashes path).dropWhile inElem)).length
        ≤ ((skipSlashes path).dropWhile inElem).length := (List.dropWhile_suffix _).length_le
      _ = (cs.dropWhile inElem).length := by rw [hpath, List.dropWhile_cons_of_pos hc]
      _ ≤ cs.length := (List.dropWhile_suffix _).length_le
      _ < (skipSlashes path).length := by simp [hpath]
      _ ≤ path.length := (List.dropWhile_suffix _).length_le

/-- The loop of `namex`, with the inode it has come to and the buffer `name`. It ends with the inode
it returns, `none` for 0, and the buffer. -/
def namexLoop (parent : Bool) (path name : List Byte) (ip : ℕ) : FsM (Option ℕ × List Byte) :=
  match _h : skipelem path name with
  | none => do
    if parent then
      iput ip
      return (none, name)
    else return (some ip, name)
  | some (path', name') => do
    ilock ip
    if (← getSlot ip).inode.type ≠ .dir then
      iunlockput ip
      return (none, name')
    else if parent ∧ front path' = 0 then
      -- stop one level early
      iunlock ip
      return (some ip, name')
    else
      match ← dirlookup ip name' with
      | none =>
        iunlockput ip
        return (none, name')
      | some (next, _) =>
        iunlockput ip
        namexLoop parent path' name' next
termination_by path.length
decreasing_by exact skipelem_length _h

/-- `namex` for a process with the current directory `cwd`. -/
def namex (cwd : ℕ) (path : List Byte) (parent : Bool) (name : List Byte) :
    FsM (Option ℕ × List Byte) := do
  if front path = slash then
    let ip ← iget rootino
    namexLoop parent path name ip
  else
    let ip ← idup cwd
    namexLoop parent path name ip

/-- What is in an array `char name[DIRSIZ]` before it is written is of no consequence. -/
def blankName : List Byte := List.replicate dirsiz 0

def namei (cwd : ℕ) (path : List Byte) : FsM (Option ℕ) := do
  let (ip, _) ← namex cwd path false blankName
  return ip

def nameiparent (cwd : ℕ) (path : List Byte) : FsM (Option ℕ × List Byte) :=
  namex cwd path true blankName

end Xv6.Fs
