import Xv6.Vm.Exec

/-! `sys_exec` as one call. The file is read while its inode is locked, so that its contents are
those of one list of bytes. The label `bad` is reached from the functions below by their result
`false` or `none`. -/
namespace Xv6
open Bytes Program

/-- The fields of an ELF header that `exec` reads. -/
structure Elfhdr where
  magic : ℕ
  entry : ℕ
  phoff : ℕ
  phnum : ℕ

abbrev elfMagic : ℕ := 0x464C457F

/-- `sizeof(struct elfhdr)` and `sizeof(struct proghdr)`. -/
abbrev elfhdrSize : ℕ := 64
abbrev proghdrSize : ℕ := 56

def elfhdr (bytes : List UInt8) : Elfhdr :=
  let b : Buf := fun k => bytes.getD k 0
  ⟨getLE b 0 4, getLE b 24 8, getLE b 32 8, getLE b 56 2⟩

def proghdr (bytes : List UInt8) : Proghdr :=
  let b : Buf := fun k => bytes.getD k 0
  ⟨.ofNat (getLE b 0 4), .ofNat (getLE b 8 8), .ofNat (getLE b 16 8), .ofNat (getLE b 32 8),
    .ofNat (getLE b 40 8)⟩

/-- `readi` to a kernel address: the bytes that are copied. `off` and `n` are `uint`. -/
def readi (data : List UInt8) (off n : ℕ) : List UInt8 :=
  if data.length < off ∨ (off + n) % 2 ^ 32 < off then []
  else (data.drop off).take (if data.length < (off + n) % 2 ^ 32 then data.length - off else n)

/-- The page table of the new image. -/
def makeTable [Image] (i : ℕ) : SysM Bool := do
  let pagetable ← mach (procPagetable (← getProc i).trapframe)
  if pagetable = 0 then return false
  setProc i fun p => { p with newtable := pagetable, newsz := 0 }
  return true

/-- The body of the loop over the program headers. -/
def loadSegment [Image] (i : ℕ) (ph : Proghdr) (readi : ℕ → ℕ → List UInt8) : SysM Bool := do
  if ph.type ≠ elfProgLoad then return true
  if ph.memsz < ph.filesz ∨ ph.vaddr + ph.memsz < ph.vaddr then return false
  let p ← getProc i
  let sz1 ← mach (uvmalloc p.newtable p.newsz (ph.vaddr + ph.memsz).toNat)
  if sz1 = 0 then return false
  setProc i fun p => { p with newsz := sz1 }
  if ph.vaddr.toNat % pgsize ≠ 0 then return false
  let p ← getProc i
  mach (loadseg p.newtable ph.vaddr.toNat readi ph.off.toNat ph.filesz.toNat)

/-- The loop over the program headers with `n` of them left. `off` is an `int` that is passed as
`uint`. -/
def loadHeaders [Image] (i : ℕ) (data : List UInt8) : ℕ → ℕ → SysM Bool
  | 0, _ => return true
  | n + 1, off => do
    let bytes := readi data off proghdrSize
    if bytes.length ≠ proghdrSize then return false
    if ← loadSegment i (proghdr bytes) (readi data) then
      loadHeaders i data n ((off + proghdrSize) % 2 ^ 32)
    else return false

/-- The part of `exec` that reads the file. -/
def loadImage [Image] (i : ℕ) (data : List UInt8) : SysM (Option Elfhdr) := do
  let bytes := readi data 0 elfhdrSize
  if bytes.length ≠ elfhdrSize then return none
  let elf := elfhdr bytes
  if elf.magic ≠ elfMagic then return none
  if !(← makeTable i) then return none
  if ← loadHeaders i data elf.phnum (elf.phoff % 2 ^ 32) then return some elf else return none

/-- Two pages are added at a page boundary; the second is the stack, which is filled with the
arguments: the stack pointer and the number of arguments. -/
def stackPhase [Image] (i : ℕ) : SysM (Option (ℕ × ℕ)) := do
  setProc i fun p => { p with newsz := pgroundup p.newsz }
  let p ← getProc i
  let sz1 ← mach (uvmalloc p.newtable p.newsz (p.newsz + 2 * pgsize))
  if sz1 = 0 then return none
  setProc i fun p => { p with newsz := sz1 }
  mach (execStack p.newtable sz1 p.argv)

/-- The process starts to use the image, and the old one is freed. -/
def commitImage [Image] (i entry sp : ℕ) : SysM Unit := do
  let p ← getProc i
  mach (setReg p.trapframe tfA1 sp)
  setProc i fun p => { p with
    pagetable := p.newtable, sz := p.newsz, newtable := 0, newsz := 0 }
  mach (setReg p.trapframe tfEpc entry)
  mach (setReg p.trapframe tfSp sp)
  mach (procFreepagetable p.pagetable p.sz)

/-- The label `bad`: the new image is freed. -/
def dropImage [Image] (i : ℕ) : SysM Unit := do
  let p ← getProc i
  mach (freePagetable p.newtable p.newsz)
  setProc i fun p => { p with newtable := 0, newsz := 0 }

/-- The system with what `exec` uses beside memory: the number of operations in the log, the
references to the inode of the file, its lock, and the names of the processes. -/
structure ExecSys where
  sys : Sys
  outstanding : ℕ
  ref : ℕ
  locked : Bool
  name : ℕ → List UInt8

abbrev ExecM (α : Type) := Prog ExecSys Panic α

def ExecSys.setSys (w : ExecSys) (s : Sys) : ExecSys := { w with sys := s }

def onSys {α : Type} (x : SysM α) : ExecM α := zoom ExecSys.sys ExecSys.setSys x

def beginOp : ExecM Unit := modify fun w => { w with outstanding := w.outstanding + 1 }

def endOp : ExecM Unit := modify fun w => { w with outstanding := w.outstanding - 1 }

/-- The inode of a path, with a reference to it; `files` gives the contents by path. -/
def namei (files : List UInt8 → Option (List UInt8)) (path : List UInt8) :
    ExecM (Option (List UInt8)) := do
  match files path with
  | none => return none
  | some data =>
    modify fun w => { w with ref := w.ref + 1 }
    return some data

def ilock : ExecM Unit := do
  if (← get).ref < 1 then throw .ilock
  modify fun w => { w with locked := true }

def iunlockput : ExecM Unit := do
  let w ← get
  if w.locked = false ∨ w.ref < 1 then throw .iunlock
  set { w with locked := false, ref := w.ref - 1 }

/-- The part of a path after its last slash. -/
def lastName (path : List UInt8) : List UInt8 :=
  path.foldl (fun last c => if c = 47 then [] else last ++ [c]) []

/-- `p->name` holds 16 bytes with the final 0. -/
def setName (i : ℕ) (last : List UInt8) : ExecM Unit :=
  modify fun w => { w with name := Function.update w.name i (last.take 15) }

def exec [Image] (i : ℕ) (files : List UInt8 → Option (List UInt8)) (path : List UInt8) :
    ExecM (Option ℕ) := do
  beginOp
  match ← namei files path with
  | none =>
    endOp
    return none
  | some data =>
    ilock
    match ← onSys (loadImage i data) with
    | none =>
      onSys (dropImage i)
      iunlockput
      endOp
      return none
    | some elf =>
      iunlockput
      endOp
      match ← onSys (stackPhase i) with
      | none =>
        onSys (dropImage i)
        return none
      | some (sp, argc) =>
        setName i (lastName path)
        onSys (commitImage i elf.entry sp)
        return some argc

/-- `uservec` saves the registers of the process in its trapframe, and `usertrap` its program
counter; the fields for the kernel between them stay. -/
def uservec (i : ℕ) (regs : Buf) : SysM Unit := do
  let p ← getProc i
  mach (modify fun m => m.setPage p.trapframe fun k =>
    if 24 ≤ k ∧ k < 32 ∨ 40 ≤ k ∧ k < 288 then regs k else m.mem p.trapframe k)

/-- `none` is the result -1. -/
def sysExec [Image] (i : ℕ) (files : List UInt8 → Option (List UInt8)) : ExecM (Option ℕ) := do
  let p ← onSys (getProc i)
  let addr ← onSys (argraw i 0)
  let (path, ok) ← onSys (mach (copyinstr p.pagetable addr maxpath))
  if !ok then return none
  let uargv ← onSys (argraw i 1)
  if ← onSys (sysExecArgs i uargv) then
    let ret ← exec i files (path.takeWhile (· ≠ 0))
    onSys (sysExecEnd i)
    return ret
  else return none

/-! The parts between which `exec` can sleep are made of the same functions. -/

/-- What `exec` does when a part of it has failed. -/
def orBad [Image] (i : ℕ) (ok : Bool) : SysM Bool :=
  if ok then return true else do
    execBad i
    return false

section parts
variable [Image] {i entry : ℕ}

theorem execBad_eq : execBad i = dropImage i >>= fun _ => sysExecEnd i := by
  simp [execBad, dropImage]

theorem execTable_eq : execTable i = makeTable i >>= orBad i := by
  unfold execTable makeTable
  simp only [bind_assoc]
  congr 1
  funext p
  congr 1
  funext pagetable
  by_cases h : pagetable = 0 <;> simp [h, orBad]

theorem execSegment_eq {ph : Proghdr} {readi : ℕ → ℕ → List UInt8} :
    execSegment i ph readi = loadSegment i ph readi >>= orBad i := by
  unfold execSegment loadSegment
  by_cases htype : ph.type ≠ elfProgLoad
  · simp [htype, orBad]
  by_cases hsize : ph.memsz < ph.filesz ∨ ph.vaddr + ph.memsz < ph.vaddr
  · simp [htype, hsize, orBad]
  simp only [htype, hsize, if_false, bind_assoc]
  congr 1
  funext p
  congr 1
  funext sz1
  by_cases hsz : sz1 = 0
  · simp [hsz, orBad]
  simp only [hsz, if_false, bind_assoc]
  congr 1
  funext _
  unfold execLoad
  by_cases halign : ph.vaddr.toNat % pgsize ≠ 0
  · simp [halign, orBad]
  · simp only [halign, if_false, bind_assoc]
    rfl

theorem execInstall_eq {sp : ℕ} :
    execInstall i entry sp = commitImage i entry sp >>= fun _ => sysExecEnd i := by
  simp [execInstall, commitImage]

theorem execCommit_eq : execCommit i entry = stackPhase i >>= fun res =>
    match res with
    | none => execBad i >>= fun _ => pure none
    | some (sp, argc) => execInstall i entry sp >>= fun _ => pure (some argc) := by
  unfold execCommit execFinish stackPhase
  simp only [bind_assoc]
  congr 1
  funext _
  congr 1
  funext p
  congr 1
  funext sz1
  by_cases hsz : sz1 = 0
  · simp [hsz]
  · rw [if_neg hsz, if_neg hsz]
    exact (bind_assoc _ _ _).symm

end parts
end Xv6
