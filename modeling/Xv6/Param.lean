import Mathlib.Algebra.Order.Ring.Nat

/-! Configuration constants and the panics of the kernel. -/
namespace Xv6

/-- Most blocks one file-system operation writes. -/
abbrev maxopblocks : ℕ := 10

/-- Data blocks the in-memory log header has room for. -/
abbrev logsize : ℕ := maxopblocks * 3

/-- Bytes in a disk block. -/
abbrev bsize : ℕ := 1024

/-- Entries of the process table. -/
abbrev nproc : ℕ := 64

/-- Most arguments of `exec`. -/
abbrev maxarg : ℕ := 32

/-- Bytes of a path name, with its final 0. -/
abbrev maxpath : ℕ := 128

/-- The places at which the kernel stops itself, one for each message. -/
inductive Panic where
  | logCommitting
  | logTooBig
  | logOutsideTrans
  | refindex
  | kfree
  | kfreeRef
  | krefinc
  | kallocRef
  | walk
  | mappagesSize
  | mappagesRemap
  | kvmmap
  | uvmunmapNotAligned
  | uvmunmapWalk
  | uvmunmapNotMapped
  | uvmunmapNotALeaf
  | inituvm
  | freewalkLeaf
  | uvmcopyPte
  | uvmcopyPage
  | uvmclear
  | loadseg
  | mapstacks
  | initExiting
  | kerneltrap
  | acquire
  | release
  | popOff
  | popOffInterruptible
  | schedLock
  | schedLocks
  | schedRunning
  | schedInterruptible
  | zombieExit
  | argraw
  | ilock
  | ilockNoType
  | iunlock
  | iget
  | ialloc
  | balloc
  | bfree
  | bmap
  | dirlookupNotDir
  | dirlookupRead
  | dirlinkRead
  | dirlink
  | isdirempty
  | unlinkNlink
  | unlinkWritei
  | createDots
  | createDirlink
  deriving DecidableEq, Repr

/-- Why a labelled step cannot be taken: the caller would sleep (or is not entitled to the
call), or the kernel panics. -/
inductive Stop where
  | blocked
  | panic (p : Panic)
  deriving DecidableEq, Repr

end Xv6
