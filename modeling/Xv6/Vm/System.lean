import Xv6.Vm.Exec

/-! The system: booting, and the operations by which processes change memory. An operation whose
process is not there, or is inside another call, does nothing. -/
namespace Xv6
open Bytes Program

/-- The operations, each with the index of its process. -/
inductive Op where
  | load (i va : ℕ)
  | store (i va : ℕ) (b : UInt8)
  | copyin (i va len : ℕ)
  | copyout (i va : ℕ) (src : List UInt8)
  | growproc (i : ℕ) (n : ℤ)
  | fork (i : ℕ)
  | exit (i status : ℕ)
  | wait (i addr : ℕ)
  | sysExec (i uargv : ℕ)
  | execTable (i : ℕ)
  | execSegment (i : ℕ) (ph : Proghdr) (readi : ℕ → ℕ → List UInt8)
  | execCommit (i entry : ℕ)
  | execFail (i : ℕ)
  | pipealloc (files : Bool)
  | pipeclose (k : ℕ) (writable : Bool)

/-- What the caller sees. -/
inductive Out where
  | idle
  | byte (b : UInt8)
  | bytes (bs : Option (List UInt8))
  | done (ok : Bool)
  | pid (r : Option ℕ)
  | waited (r : WaitResult)
  | killed
  deriving DecidableEq, Repr

/-- The process runs in user mode or in a call other than `exec`. -/
def Running (p : Proc) : Prop := p.state = .runnable ∧ p.inExec = false

/-- The process is inside `exec`, before or after its new page table is made. -/
def Execing (p : Proc) (made : Bool) : Prop := p.inExec = true ∧ (made = true ↔ p.newtable ≠ 0)

instance (p : Proc) : Decidable (Running p) := inferInstanceAs (Decidable (_ ∧ _))

instance (p : Proc) (made : Bool) : Decidable (Execing p made) :=
  inferInstanceAs (Decidable (_ ∧ _))

/-- When an operation may happen. -/
def Op.enabled (s : Sys) : Op → Bool
  | .load i _ | .store i _ _ | .copyin i _ _ | .copyout i _ _ | .fork i | .exit i _
  | .wait i _ | .sysExec i _ => decide (i < nproc ∧ Running (s.proc i))
  | .growproc i n => decide (i < nproc ∧ Running (s.proc i) ∧ -2 ^ 31 ≤ n ∧ n < 2 ^ 31)
  | .execTable i => decide (i < nproc ∧ Execing (s.proc i) false)
  | .execSegment i _ _ | .execCommit i _ => decide (i < nproc ∧ Execing (s.proc i) true)
  | .execFail i => decide (i < nproc ∧ (s.proc i).inExec = true)
  | .pipealloc _ => true
  | .pipeclose k writable =>
    match s.pipes[k]? with
    | none => false
    | some p => if writable then p.writeopen else p.readopen

def perform [Image] : Op → SysM Out
  | .load i va => do
    match ← userLoad i va with
    | some b => return .byte b
    | none => return .killed
  | .store i va b => do
    if ← userStore i va b then return .done true else return .killed
  | .copyin i va len => do return .bytes (← mach (copyin (← getProc i).pagetable va len))
  | .copyout i va src => do return .done (← mach (copyout (← getProc i).pagetable va src))
  | .growproc i n => do return .done (← growproc i n)
  | .fork i => do return .pid (← fork i)
  | .exit i status => do
    exit i status
    return .killed
  | .wait i addr => do return .waited (← wait i addr)
  | .sysExec i uargv => do return .done (← sysExecArgs i uargv)
  | .execTable i => do return .done (← execTable i)
  | .execSegment i ph readi => do return .done (← execSegment i ph readi)
  | .execCommit i entry => do return .pid (← execCommit i entry)
  | .execFail i => do
    execBad i
    return .done false
  | .pipealloc files => do return .done (← pipealloc files)
  | .pipeclose k writable => do
    match (← get).pipes[k]? with
    | none => return .idle
    | some p =>
      pipeclose p writable
      return .idle

def Op.step [Image] (op : Op) : SysM Out := do
  if op.enabled (← get) then perform op else return .idle

/-- A run: the results of the operations. -/
def runOps [Image] : List Op → SysM (List Out)
  | [] => return []
  | op :: ops => do
    let out ← op.step
    let outs ← runOps ops
    return out :: outs

/-- Memory before the kernel starts: arbitrary contents, reference counts in zeroed `.bss`. -/
def Sys.power (mem : ℕ → Buf) : Sys where
  mach := ⟨mem, [], fun _ => 0⟩
  proc := fun _ => {}
  nextpid := 1
  initproc := none
  kernelPagetable := 0
  pipes := []

/-- The calls of `main` that set up memory and the first process. -/
def boot [Image] : SysM Unit := do
  mach kinit
  let kpgtbl ← mach kvmmake
  modify fun s => { s with kernelPagetable := kpgtbl }
  userinit

end Xv6
