import Xv6.Vm.Proc

/-! `sys_exec` and `exec`. The call sleeps while it reads the program from the disk, so that it
is cut at these points: the arguments are fetched, the page table is made, a segment is loaded,
the new image is committed. Other processes run in between. What is read from the file is a
parameter of each part. -/
namespace Xv6
open Bytes Program

/-- The fields of a program header that `exec` reads. -/
structure Proghdr where
  type : UInt32
  off : UInt64
  vaddr : UInt64
  filesz : UInt64
  memsz : UInt64

abbrev elfProgLoad : UInt32 := 1

/-- `uint64` subtraction. -/
def sub64 (a b : ℕ) : ℕ := (a + 2 ^ 64 - b) % 2 ^ 64

/-- The word at a user address of the process, `none` for -1. -/
def fetchaddr (i addr : ℕ) : SysM (Option ℕ) := do
  let p ← getProc i
  if p.sz ≤ addr ∨ p.sz < (addr + 8) % 2 ^ 64 then return none
  match ← mach (copyin p.pagetable addr 8) with
  | none => return none
  | some bytes => return some (getLE (fun k => bytes.getD k 0) 0 8)

/-- The length of the string at the start of a buffer. -/
def strlen (bytes : List UInt8) : ℕ := (bytes.takeWhile (· ≠ 0)).length

/-- Copy a string of the process to the buffer `buf`: its length, `none` for -1. -/
def fetchstr (i addr buf max : ℕ) : SysM (Option ℕ) := do
  let p ← getProc i
  let (bytes, ok) ← mach (copyinstr p.pagetable addr max)
  mach (modify fun s => s.setPage buf (write (s.mem buf) 0 bytes))
  if ok then return some (strlen (read ((← get).mach.mem buf) 0 max)) else return none

/-- The system call argument in register `n` of the trapframe. -/
def argraw (i n : ℕ) : SysM ℕ := do
  if 6 ≤ n then throw .argraw
  let p ← getProc i
  return getLE ((← get).mach.mem p.trapframe) (tfA0 + 8 * n) 8

/-- The system call argument `n` as a string. -/
def argstr (i n buf max : ℕ) : SysM (Option ℕ) := do fetchstr i (← argraw i n) buf max

/-- The loop of `sys_exec` over the argument vector, with `n` entries of `argv` left. -/
def fetchArgs (i uargv : ℕ) : ℕ → SysM Bool
  | 0 => return false
  | n + 1 => do
    match ← fetchaddr i ((uargv + 8 * (maxarg - (n + 1))) % 2 ^ 64) with
    | none => return false
    | some uarg =>
      if uarg = 0 then return true
      match ← mach kalloc with
      | none => return false
      | some pa =>
        setProc i fun p => { p with argv := p.argv ++ [pa] }
        match ← fetchstr i uarg pa pgsize with
        | none => return false
        | some _ => fetchArgs i uargv n

/-- The loop that frees the pages of the arguments. -/
def freeArgs [Image] : List ℕ → Kernel Unit
  | [] => return ()
  | pa :: rest => do
    kfree pa
    freeArgs rest

/-- The end of `sys_exec`. -/
def sysExecEnd [Image] (i : ℕ) : SysM Unit := do
  mach (freeArgs (← getProc i).argv)
  setProc i fun p => { p with inExec := false, argv := [] }

/-- `sys_exec` up to the call of `exec`. -/
def sysExecArgs [Image] (i uargv : ℕ) : SysM Bool := do
  if ← fetchArgs i uargv maxarg then
    setProc i fun p => { p with inExec := true }
    return true
  else
    sysExecEnd i
    return false

/-- The label `bad` of `exec` and the return to `sys_exec`. -/
def execBad [Image] (i : ℕ) : SysM Unit := do
  let p ← getProc i
  mach (freePagetable p.newtable p.newsz)
  setProc i fun p => { p with newtable := 0, newsz := 0 }
  sysExecEnd i

/-- The ELF header has been read; an empty address space is made. -/
def execTable [Image] (i : ℕ) : SysM Bool := do
  let pagetable ← mach (procPagetable (← getProc i).trapframe)
  if pagetable = 0 then
    execBad i
    return false
  setProc i fun p => { p with newtable := pagetable, newsz := 0 }
  return true

/-- The loop of `loadseg` from offset `i` on; `readi` gives the bytes of the file at an offset. -/
def loadsegLoop (pagetable va : ℕ) (readi : ℕ → ℕ → List UInt8) (offset sz : ℕ) :
    ℕ → ℕ → Kernel Bool
  | 0, _ => return true
  | k + 1, i => do
    match ← walkaddr pagetable (va + i) with
    | none => throw .loadseg
    | some pa =>
      let n := if sz - i < pgsize then sz - i else pgsize
      let bytes := (readi ((offset + i) % 2 ^ 32) n).take n
      modify fun s => s.setPage pa (write (s.mem pa) 0 bytes)
      if bytes.length ≠ n then return false
      loadsegLoop pagetable va readi offset sz k (i + pgsize)

/-- `offset` and `sz` are `uint`. -/
def loadseg (pagetable va : ℕ) (readi : ℕ → ℕ → List UInt8) (offset sz : ℕ) : Kernel Bool :=
  loadsegLoop pagetable va readi (offset % 2 ^ 32) (sz % 2 ^ 32)
    ((sz % 2 ^ 32 + (pgsize - 1)) / pgsize) 0

/-- The segment has its pages; they are filled from the file. -/
def execLoad [Image] (i : ℕ) (ph : Proghdr) (readi : ℕ → ℕ → List UInt8) : SysM Bool := do
  if ph.vaddr.toNat % pgsize ≠ 0 then
    execBad i
    return false
  let p ← getProc i
  if ← mach (loadseg p.newtable ph.vaddr.toNat readi ph.off.toNat ph.filesz.toNat) then
    return true
  else
    execBad i
    return false

/-- One turn of the loop over the program headers. -/
def execSegment [Image] (i : ℕ) (ph : Proghdr) (readi : ℕ → ℕ → List UInt8) : SysM Bool := do
  if ph.type ≠ elfProgLoad then return true
  if ph.memsz < ph.filesz ∨ ph.vaddr + ph.memsz < ph.vaddr then
    execBad i
    return false
  let p ← getProc i
  let sz1 ← mach (uvmalloc p.newtable p.newsz (ph.vaddr + ph.memsz).toNat)
  if sz1 = 0 then
    execBad i
    return false
  setProc i fun p => { p with newsz := sz1 }
  execLoad i ph readi

/-- The string in a page, with its final 0. -/
def cstr (b : Buf) : List UInt8 := (read b 0 pgsize).takeWhile (· ≠ 0) ++ [0]

/-- A stack pointer moved down by `n` bytes and aligned. -/
def pushSp (sp n : ℕ) : ℕ := sub64 sp n - sub64 sp n % 16

/-- The loop that copies the argument strings to the stack: the stack pointer and `ustack`. -/
def pushArgs [Image] (pagetable stackbase : ℕ) :
    List ℕ → ℕ → List ℕ → Kernel (Option (ℕ × List ℕ))
  | [], sp, ustack => return some (sp, ustack)
  | pa :: rest, sp, ustack => do
    if maxarg ≤ ustack.length then return none
    let str := cstr ((← get).mem pa)
    let sp := pushSp sp str.length
    if sp < stackbase then return none
    if ← copyout pagetable sp str then pushArgs pagetable stackbase rest sp (ustack ++ [sp])
    else return none

/-- The words of `ustack` in memory. -/
def wordBytes (ws : List ℕ) : List UInt8 :=
  ws.flatMap fun w => read (setLE (fun _ => 0) 0 8 w) 0 8

/-- The stack is filled: the stack pointer and the number of arguments. -/
def execStack [Image] (pagetable sz : ℕ) (argv : List ℕ) : Kernel (Option (ℕ × ℕ)) := do
  uvmclear pagetable (sz - 2 * pgsize)
  match ← pushArgs pagetable (sz - pgsize) argv sz [] with
  | none => return none
  | some (sp, ustack) =>
    let sp := pushSp sp ((ustack.length + 1) * 8)
    if sp < sz - pgsize then return none
    if ← copyout pagetable sp (wordBytes (ustack ++ [0])) then return some (sp, ustack.length)
    else return none

/-- The image is complete: the process starts to use it and the old one is freed. -/
def execInstall [Image] (i entry sp : ℕ) : SysM Unit := do
  let p ← getProc i
  mach (setReg p.trapframe tfA1 sp)
  setProc i fun p => { p with
    pagetable := p.newtable, sz := p.newsz, newtable := 0, newsz := 0 }
  mach (setReg p.trapframe tfEpc entry)
  mach (setReg p.trapframe tfSp sp)
  mach (procFreepagetable p.pagetable p.sz)
  sysExecEnd i

/-- Two pages are added at a page boundary, the second is the stack. -/
def execFinish [Image] (i entry : ℕ) : SysM (Option ℕ) := do
  let p ← getProc i
  let sz1 ← mach (uvmalloc p.newtable p.newsz (p.newsz + 2 * pgsize))
  if sz1 = 0 then
    execBad i
    return none
  setProc i fun p => { p with newsz := sz1 }
  match ← mach (execStack p.newtable sz1 p.argv) with
  | none =>
    execBad i
    return none
  | some (sp, argc) =>
    execInstall i entry sp
    return some argc

/-- `exec` after the last segment: the number of arguments, `none` for -1. -/
def execCommit [Image] (i entry : ℕ) : SysM (Option ℕ) := do
  setProc i fun p => { p with newsz := pgroundup p.newsz }
  execFinish i entry

end Xv6
