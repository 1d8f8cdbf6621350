import Xv6.Vm.PageTable

/-! Processes, `proc.c`, with the parts of `trap.c` and `pipe.c` that touch memory. A null
pointer is 0. The scheduler is not modelled: sleeping and running processes are runnable ones
here. Each function runs to its end before another process gets a turn. -/
namespace Xv6
open Bytes Program

inductive ProcState where
  | unused
  | used
  | runnable
  | zombie
  deriving DecidableEq, Repr

/-- An entry of the process table. The last four fields are the local variables of `sys_exec`
and `exec` while the process is inside that call: the pages of the argument strings, the page
table under construction and its size. -/
structure Proc where
  state : ProcState := .unused
  parent : Option ℕ := none
  xstate : ℕ := 0
  pid : ℕ := 0
  sz : ℕ := 0
  pagetable : ℕ := 0
  trapframe : ℕ := 0
  inExec : Bool := false
  argv : List ℕ := []
  newtable : ℕ := 0
  newsz : ℕ := 0

/-- A pipe is named by the page that holds it. -/
structure Pipe where
  page : ℕ
  readopen : Bool
  writeopen : Bool

structure Sys where
  mach : Machine
  proc : ℕ → Proc
  nextpid : ℕ
  initproc : Option ℕ
  kernelPagetable : ℕ
  pipes : List Pipe

abbrev SysM (α : Type) := Prog Sys Panic α

def Sys.setMach (s : Sys) (m : Machine) : Sys := { s with mach := m }

def Sys.setProc (s : Sys) (i : ℕ) (p : Proc) : Sys :=
  { s with proc := Function.update s.proc i p }

/-- A function of the memory system called from a process. -/
def mach {α : Type} (x : Kernel α) : SysM α := zoom Sys.mach Sys.setMach x

def getProc (i : ℕ) : SysM Proc := return (← get).proc i

def setProc (i : ℕ) (f : Proc → Proc) : SysM Unit := modify fun s => s.setProc i (f (s.proc i))

def kstackVa (i : ℕ) : ℕ := trampolineVa - (i + 1) * 2 * pgsize

/-- The loop of `proc_mapstacks` over the last `n` processes. -/
def procMapstacks (kpgtbl : ℕ) : ℕ → Kernel Unit
  | 0 => return ()
  | n + 1 => do
    match ← kalloc with
    | none => throw .mapstacks
    | some pa =>
      kvmmap kpgtbl (kstackVa (nproc - (n + 1))) pa pgsize (pteR ||| pteW)
      procMapstacks kpgtbl n

abbrev uart0 : ℕ := 0x10000000
abbrev virtio0 : ℕ := 0x10001000
abbrev plic : ℕ := 0x0c000000

/-- Without memory the source goes on with the null pointer. -/
def kvmmake [Image] : Kernel ℕ := do
  match ← kalloc with
  | none => throw .kerneltrap
  | some kpgtbl =>
    memset kpgtbl 0
    kvmmap kpgtbl uart0 uart0 pgsize (pteR ||| pteW)
    kvmmap kpgtbl virtio0 virtio0 pgsize (pteR ||| pteW)
    kvmmap kpgtbl plic plic 0x400000 (pteR ||| pteW)
    kvmmap kpgtbl kernbase kernbase (etext - kernbase) (pteR ||| pteX)
    kvmmap kpgtbl etext etext (phystop - etext) (pteR ||| pteW)
    kvmmap kpgtbl trampolineVa trampoline pgsize (pteR ||| pteX)
    procMapstacks kpgtbl nproc
    return kpgtbl

/-- Returns 0 when memory runs out. -/
def procPagetable [Image] (trapframe : ℕ) : Kernel ℕ := do
  match ← uvmcreate with
  | none => return 0
  | some pagetable =>
    if ← mappages pagetable trampolineVa pgsize trampoline (pteR ||| pteX) then
      if ← mappages pagetable trapframeVa pgsize trapframe (pteR ||| pteW) then
        return pagetable
      else
        uvmunmap pagetable trampolineVa 1 false
        uvmfree pagetable 0
        return 0
    else
      uvmfree pagetable 0
      return 0

def procFreepagetable [Image] (pagetable sz : ℕ) : Kernel Unit := do
  uvmunmap pagetable trampolineVa 1 false
  uvmunmap pagetable trapframeVa 1 false
  uvmfree pagetable sz

/-- `if(p->trapframe) kfree(p->trapframe)`. -/
def freeTrapframe [Image] (trapframe : ℕ) : Kernel Unit :=
  if trapframe ≠ 0 then kfree trapframe else return ()

/-- `if(pagetable) proc_freepagetable(pagetable, sz)`. -/
def freePagetable [Image] (pagetable sz : ℕ) : Kernel Unit :=
  if pagetable ≠ 0 then procFreepagetable pagetable sz else return ()

def freeproc [Image] (i : ℕ) : SysM Unit := do
  mach (freeTrapframe (← getProc i).trapframe)
  setProc i fun p => { p with trapframe := 0 }
  let p ← getProc i
  mach (freePagetable p.pagetable p.sz)
  setProc i fun p => { p with
    pagetable := 0, sz := 0, pid := 0, parent := none, xstate := 0, state := .unused }

/-- The rest of `allocproc` once an unused entry is found. -/
def allocprocFound [Image] (i : ℕ) : SysM (Option ℕ) := do
  let pid := (← get).nextpid
  modify fun s => { s with nextpid := pid + 1 }
  setProc i fun p => { p with pid := pid, state := .used }
  match ← mach kalloc with
  | none =>
    freeproc i
    return none
  | some tf =>
    setProc i fun p => { p with trapframe := tf }
    let pagetable ← mach (procPagetable tf)
    setProc i fun p => { p with pagetable := pagetable }
    if pagetable = 0 then
      freeproc i
      return none
    return some i

def allocproc [Image] : SysM (Option ℕ) := do
  let s ← get
  match (List.range nproc).find? fun i => (s.proc i).state = .unused with
  | none => return none
  | some i => allocprocFound i

def initcode : List UInt8 :=
  [0x17, 0x05, 0x00, 0x00, 0x13, 0x05, 0x45, 0x02,
   0x97, 0x05, 0x00, 0x00, 0x93, 0x85, 0x35, 0x02,
   0x93, 0x08, 0x70, 0x00, 0x73, 0x00, 0x00, 0x00,
   0x93, 0x08, 0x20, 0x00, 0x73, 0x00, 0x00, 0x00,
   0xef, 0xf0, 0x9f, 0xff, 0x2f, 0x69, 0x6e, 0x69,
   0x74, 0x00, 0x00, 0x24, 0x00, 0x00, 0x00, 0x00,
   0x00, 0x00, 0x00, 0x00]

/-- Offsets of the registers in a trapframe. -/
abbrev tfEpc : ℕ := 24
abbrev tfSp : ℕ := 48
abbrev tfA0 : ℕ := 112
abbrev tfA1 : ℕ := 120

/-- Store a register in the trapframe of a process. -/
def setReg (trapframe off v : ℕ) : Kernel Unit :=
  modify fun s => s.setPage trapframe (setLE (s.mem trapframe) off 8 v)

/-- Without memory for the first process the source goes on with the null pointer. -/
def userinit [Image] : SysM Unit := do
  match ← allocproc with
  | none => throw .kerneltrap
  | some i =>
    modify fun s => { s with initproc := some i }
    let p ← getProc i
    mach (uvminit p.pagetable initcode)
    setProc i fun p => { p with sz := pgsize }
    mach (setReg p.trapframe tfEpc 0)
    mach (setReg p.trapframe tfSp pgsize)
    setProc i fun p => { p with state := .runnable }

/-- `growproc` computes in `uint`; `n` is an `int`. -/
def growproc [Image] (i : ℕ) (n : ℤ) : SysM Bool := do
  let p ← getProc i
  let sz := p.sz % 2 ^ 32
  let newsz := (((sz : ℤ) + n) % 2 ^ 32).toNat
  if 0 < n then
    let r ← mach (uvmalloc p.pagetable sz newsz)
    if r % 2 ^ 32 = 0 then return false
    setProc i fun p => { p with sz := r % 2 ^ 32 }
    return true
  else if n < 0 then
    let r ← mach (uvmdealloc p.pagetable sz newsz)
    setProc i fun p => { p with sz := r % 2 ^ 32 }
    return true
  else
    setProc i fun p => { p with sz := sz }
    return true

/-- `sys_sbrk` with the argument `n`: the old size, which passes through an `int`, or -1. -/
def sysSbrk [Image] (i : ℕ) (n : ℤ) : SysM ℕ := do
  let addr := throughInt (← getProc i).sz
  if ← growproc i n then return addr else return 2 ^ 64 - 1

/-- `fork` once the child has its entry. -/
def forkCopy [Image] (i np : ℕ) : SysM (Option ℕ) := do
  let p ← getProc i
  let c ← getProc np
  if ← mach (uvmcopy p.pagetable c.pagetable p.sz) then
    setProc np fun c => { c with sz := p.sz }
    mach (modify fun s => s.setPage c.trapframe (s.mem p.trapframe))
    mach (setReg c.trapframe tfA0 0)
    setProc np fun c => { c with parent := some i, state := .runnable }
    return some c.pid
  else
    freeproc np
    return none

/-- The pid of the child, `none` for -1. -/
def fork [Image] (i : ℕ) : SysM (Option ℕ) := do
  match ← allocproc with
  | none => return none
  | some np => forkCopy i np

/-- A child of `i` goes to the first process. -/
def Proc.reparent (p : Proc) (i : ℕ) (initproc : Option ℕ) : Proc :=
  if p.parent = some i then { p with parent := initproc } else p

/-- `reparent` over the whole table. -/
def reparent (i : ℕ) : SysM Unit :=
  modify fun s => { s with proc := fun j => (s.proc j).reparent i s.initproc }

def exit (i status : ℕ) : SysM Unit := do
  if (← get).initproc = some i then throw .initExiting
  reparent i
  setProc i fun p => { p with xstate := status, state := .zombie }

/-- The status of a child as `copyout` sees it: an `int`. -/
def intBytes (v : ℕ) : List UInt8 := read (setLE (fun _ => 0) 0 4 v) 0 4

/-- The result of `wait`: sleeping, -1, or the pid of a child that has been freed. -/
inductive WaitResult where
  | sleep
  | fail
  | child (pid : ℕ)
  deriving DecidableEq, Repr

def wait [Image] (i addr : ℕ) : SysM WaitResult := do
  let s ← get
  match (List.range nproc).find? fun j =>
      (s.proc j).parent = some i ∧ (s.proc j).state = .zombie with
  | some np =>
    let c ← getProc np
    if addr = 0 then
      freeproc np
      return .child c.pid
    if ← mach (copyout (s.proc i).pagetable addr (intBytes c.xstate)) then
      freeproc np
      return .child c.pid
    else return .fail
  | none =>
    if (List.range nproc).any fun j => (s.proc j).parent = some i then return .sleep
    else return .fail

/-- A user load; a page fault kills the process. -/
def userLoad (i va : ℕ) : SysM (Option UInt8) := do
  match ← mach (loadByte (← getProc i).pagetable va) with
  | some b => return some b
  | none =>
    exit i (2 ^ 32 - 1)
    return none

/-- A user store. A page fault enters `usertrap` with scause 15, which kills the process when
`cowalloc` fails and otherwise lets the store run again. -/
def userStore [Image] (i va : ℕ) (b : UInt8) : SysM Bool := do
  let p ← getProc i
  if ← mach (storeByte p.pagetable va b) then return true
  if ← mach (cowalloc p.pagetable va) then mach (storeByte p.pagetable va b)
  else
    exit i (2 ^ 32 - 1)
    return false

/-- `filealloc` has given both files or not. -/
def pipealloc (files : Bool) : SysM Bool := do
  if !files then return false
  match ← mach kalloc with
  | none => return false
  | some pi =>
    modify fun s => { s with pipes := ⟨pi, true, true⟩ :: s.pipes }
    return true

/-- One end of a pipe is closed. -/
def Pipe.closed (p : Pipe) (writable : Bool) : Pipe :=
  if writable then { p with writeopen := false } else { p with readopen := false }

def pipeclose [Image] (pi : Pipe) (writable : Bool) : SysM Unit := do
  let q := pi.closed writable
  if q.readopen = false ∧ q.writeopen = false then
    modify fun s => { s with pipes := s.pipes.filter (·.page ≠ pi.page) }
    mach (kfree pi.page)
  else
    modify fun s => { s with pipes := s.pipes.map fun x => if x.page = pi.page then q else x }

end Xv6
