import Xv6.Fs.Names
import Xv6.Lib.Runs

/-! The system calls that make and remove links, sysfile.c, for paths that `argstr` has fetched. -/
namespace Xv6.Fs
open Program

/-- `"."` and `".."` -/
def dot : List Byte := [46]

def dotdot : List Byte := [46, 46]

/-- The exit of `sys_link` that takes the link back. -/
def linkBad (ip : ℕ) : FsM Bool := do
  ilock ip
  modifyInode ip fun d => { d with nlink := d.nlink - 1 }
  iupdate ip
  iunlockput ip
  return false

/-- `sys_link`; `false` is -1. There is one device, so the test of `dev` is left out. -/
def sysLink (cwd : ℕ) (old new : List Byte) : FsM Bool := do
  match ← namei cwd old with
  | none => return false
  | some ip =>
    ilock ip
    if (← getSlot ip).inode.type = .dir then
      iunlockput ip
      return false
    else
      modifyInode ip fun d => { d with nlink := d.nlink + 1 }
      iupdate ip
      iunlock ip
      match ← nameiparent cwd new with
      | (none, _) => linkBad ip
      | (some dp, name) =>
        ilock dp
        if ← dirlink dp name ip then
          iunlockput dp
          iput ip
          return true
        else
          iunlockput dp
          linkBad ip

/-- The loop of `isdirempty`. -/
def emptyDirFrom (dp : ℕ) : List ℕ → FsM Bool
  | [] => return true
  | off :: offs => do
    let bs ← readi dp off direntSize
    if bs.length ≠ direntSize then panic .isdirempty
    else if (Dirent.ofBytes bs).inum ≠ 0 then return false
    else emptyDirFrom dp offs

def isdirempty (dp : ℕ) : FsM Bool := do
  let size := (← getSlot dp).inode.content.length
  emptyDirFrom dp ((offsets size).drop 2)

/-- `sys_unlink` removes the entry. -/
def clearEntry (dp off : ℕ) : FsM Unit := do
  let r ← writei dp off (List.replicate direntSize 0)
  if r ≠ some direntSize then panic .unlinkWritei

/-- `sys_unlink` with the parent `dp` and the inode `ip` locked, once `ip` may go. -/
def unlinkEntry (dp ip off : ℕ) : FsM Bool := do
  clearEntry dp off
  if (← getSlot ip).inode.type = .dir then
    modifyInode dp fun d => { d with nlink := d.nlink - 1 }
    iupdate dp
  iunlockput dp
  modifyInode ip fun d => { d with nlink := d.nlink - 1 }
  iupdate ip
  iunlockput ip
  return true

/-- `sys_unlink`; `false` is -1. -/
def sysUnlink (cwd : ℕ) (path : List Byte) : FsM Bool := do
  match ← nameiparent cwd path with
  | (none, _) => return false
  | (some dp, name) =>
    ilock dp
    if namecmp name dot = 0 ∨ namecmp name dotdot = 0 then
      iunlockput dp
      return false
    else
      match ← dirlookup dp name with
      | none =>
        iunlockput dp
        return false
      | some (ip, off) =>
        ilock ip
        let sl ← getSlot ip
        if sl.inode.nlink < 1 then panic .unlinkNlink
        else
          if sl.inode.type = .dir then
            if ← isdirempty ip then unlinkEntry dp ip off
            else
              iunlockput ip
              iunlockput dp
              return false
          else unlinkEntry dp ip off

/-- `create` once `ialloc` has found the inode `ip`. -/
def createNew (dp ip : ℕ) (name : List Byte) (type : InodeType) (major minor : Int16) :
    FsM (Option ℕ) := do
  ilock ip
  modifyInode ip fun d => { d with major := major, minor := minor, nlink := 1 }
  iupdate ip
  if type = .dir then
    modifyInode dp fun d => { d with nlink := d.nlink + 1 }
    iupdate dp
    if ← dirlink ip dot ip then
      if ← dirlink ip dotdot dp then pure () else panic .createDots
    else panic .createDots
  if ← dirlink dp name ip then
    iunlockput dp
    return some ip
  else panic .createDirlink

/-- The inode that `create` returns is locked. -/
def create (cwd : ℕ) (path : List Byte) (type : InodeType) (major minor : Int16) :
    FsM (Option ℕ) := do
  match ← nameiparent cwd path with
  | (none, _) => return none
  | (some dp, name) =>
    ilock dp
    match ← dirlookup dp name with
    | some (ip, _) =>
      iunlockput dp
      ilock ip
      let sl ← getSlot ip
      if type = .file ∧ (sl.inode.type = .file ∨ sl.inode.type = .device) then return some ip
      else
        iunlockput ip
        return none
    | none =>
      let ip ← ialloc type
      createNew dp ip name type major minor

def sysMkdir (cwd : ℕ) (path : List Byte) : FsM Bool := do
  match ← create cwd path .dir 0 0 with
  | none => return false
  | some ip =>
    iunlockput ip
    return true

def sysMknod (cwd : ℕ) (path : List Byte) (major minor : Int16) : FsM Bool := do
  match ← create cwd path .device major minor with
  | none => return false
  | some ip =>
    iunlockput ip
    return true

/-- `sys_open` with `O_CREATE`, as far as the file system is concerned. If a file and a descriptor
are `available`, the inode stays referenced by the open file. -/
def sysCreate (cwd : ℕ) (path : List Byte) (available : Bool) : FsM (Option ℕ) := do
  match ← create cwd path .file 0 0 with
  | none => return none
  | some ip =>
    if available then
      iunlock ip
      return some ip
    else
      iunlockput ip
      return none

end Xv6.Fs
