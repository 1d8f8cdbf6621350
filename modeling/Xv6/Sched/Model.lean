import Mathlib.Data.Int.Notation
import Mathlib.Logic.Function.Basic
import Mathlib.Tactic.Simps.Basic
import Xv6.Lib.Runs
import Xv6.Param

/-! Processes, CPUs and the scheduler at the grain of locks, `proc.c`. A thread is the list of
the actions it still has to take; an action is what runs between two acquisitions or releases of
a lock. A function of the source is such a list, and an action that branches or loops puts what
comes next in front of the rest. The memory of a process is one flag: whether `kalloc`,
`uvmcopy` and `copyout` succeed is an input. -/
namespace Xv6.Sched

inductive ProcState where
  | unused
  | used
  | sleeping
  | runnable
  | running
  | zombie
  deriving DecidableEq, Repr

/-- What a process sleeps on: an address, of a process or of something else. -/
inductive Chan where
  | null
  | proc (i : ℕ)
  | other (k : ℕ)
  deriving DecidableEq, Repr

inductive Lock where
  | proc (i : ℕ)
  | wait
  | other (k : ℕ)
  deriving DecidableEq, Repr

/-- A kernel stack: one for each process, and one for the scheduler of each CPU. -/
inductive Thread where
  | proc (i : ℕ)
  | sched (c : ℕ)
  deriving DecidableEq, Repr

/-- `int` in the source. -/
abbrev Pid := BitVec 32

/-- An entry of the process table. `memory` stands for the trapframe and the page table. -/
structure Proc where
  state : ProcState := .unused
  chan : Chan := .null
  killed : Bool := false
  xstate : ℤ := 0
  pid : Pid := 0
  parent : Option ℕ := none
  memory : Bool := false
  deriving DecidableEq, Repr

/-- What a system call returns; `none` is -1. -/
inductive Result where
  | fork (pid : Option Pid)
  | wait (child : Option (Pid × ℤ))
  | kill (found : Bool)
  deriving DecidableEq, Repr

/-- The actions. `p` is the caller's process, `j` the entry of the table that a loop is at. -/
inductive Act where
  | acquire (l : Lock)
  | release (l : Lock)
  | setRunnable (p : ℕ)
  | setSleeping (p : ℕ) (chan : Chan)
  | setZombie (p : ℕ) (status : ℤ)
  | sched
  | load (t : Thread)
  | clearChan (p : ℕ)
  | wakeupFrom (chan : Chan) (j : ℕ)
  | wakeupAt (chan : Chan) (j : ℕ)
  | killFrom (pid : Pid) (j : ℕ)
  | killAt (pid : Pid) (j : ℕ)
  | allocFrom (p j : ℕ)
  | allocAt (p j : ℕ)
  | allocMemory (p j : ℕ)
  | copyMemory (p j : ℕ)
  | setParent (p j : ℕ)
  | startChild (p j : ℕ)
  | reparentFrom (p j : ℕ)
  | wakeupParent (p : ℕ)
  | zombieExit
  | waitFrom (p addr j : ℕ) (havekids : Bool)
  | waitAt (p addr j : ℕ)
  | scheduleFrom (j : ℕ)
  | scheduleAt (j : ℕ)
  | leaveProc
  | forkret
  | timer
  | ret (r : Result)
  deriving DecidableEq, Repr

open Act

def yield (p : ℕ) : List Act := [acquire (.proc p), setRunnable p, sched, release (.proc p)]

def sleep (p : ℕ) (chan : Chan) (lk : Lock) : List Act :=
  [acquire (.proc p), release lk, setSleeping p chan, sched, clearChan p, release (.proc p),
    acquire lk]

def wakeup (chan : Chan) : List Act := [wakeupFrom chan 0]

def kill (pid : Pid) : List Act := [killFrom pid 0]

def fork (p : ℕ) : List Act := [allocFrom p 0]

/-- `fork` once the child has its memory. -/
def forkEnd (p j : ℕ) (pid : Pid) : List Act :=
  [release (.proc j), acquire .wait, setParent p j, release .wait, acquire (.proc j),
    startChild p j, release (.proc j), ret (.fork (some pid))]

/-- `exit` without the closing of files, which is other kernel code. -/
def exit (p : ℕ) (status : ℤ) : List Act :=
  [acquire .wait, reparentFrom p 0, wakeupParent p, acquire (.proc p), setZombie p status,
    release .wait, sched, zombieExit]

def wait (p addr : ℕ) : List Act := [acquire .wait, waitFrom p addr 0 false]

/-- The scheduler after the switch to process `j` has come back. -/
def afterProc (j : ℕ) : List Act := [leaveProc, release (.proc j), scheduleFrom (j + 1)]

/-- The machine: the process table, locks with the CPU that holds them, and for each CPU
`noff`, `c->proc`, the stack it is on and what it has still to do there. `ctx` holds saved
contexts; one that has been loaded is stale until the next save. -/
structure State where
  nproc : ℕ
  initproc : ℕ
  nextpid : Pid
  proc : ℕ → Proc
  lock : Lock → Option ℕ
  noff : ℕ → ℕ
  cur : ℕ → Option ℕ
  who : ℕ → Thread
  todo : ℕ → List Act
  ctx : Thread → Option (List Act)

/-- Why a step does not happen: the kernel panics, or something undefined would happen. -/
inductive Fault where
  | panic (p : Panic)
  | nullProc
  | staleContext
  deriving DecidableEq, Repr

@[simps]
def State.setProc (s : State) (j : ℕ) (x : Proc) : State :=
  { s with proc := Function.update s.proc j x }

@[simps]
def State.setTodo (s : State) (c : ℕ) (code : List Act) : State :=
  { s with todo := Function.update s.todo c code }

@[simps]
def State.setCtx (s : State) (t : Thread) (code : Option (List Act)) : State :=
  { s with ctx := Function.update s.ctx t code }

@[simps]
def State.setCur (s : State) (c : ℕ) (p : Option ℕ) : State :=
  { s with cur := Function.update s.cur c p }

/-- The CPU takes or gives back a lock. -/
@[simps]
def State.setLock (s : State) (l : Lock) (o : Option ℕ) (c n : ℕ) : State :=
  { s with lock := Function.update s.lock l o, noff := Function.update s.noff c n }

/-- `kill` of the process of one entry. -/
def Proc.kill (x : Proc) : Proc :=
  { x with killed := true, state := if x.state = .sleeping then .runnable else x.state }

/-- `wakeup` of the process of one entry. -/
def Proc.wakeup (x : Proc) (chan : Chan) : Proc :=
  if x.state = .sleeping ∧ x.chan = chan then { x with state := .runnable } else x

/-- The address of a process, as `wakeup` gets it. -/
def chanOf : Option ℕ → Chan
  | some q => .proc q
  | none => .null

/-- CPU `c` takes an action. `ok` is the outcome of `kalloc`, `uvmcopy` or `copyout`. -/
def State.act (s : State) (c : ℕ) (ok : Bool) (a : Act) (rest : List Act) : Except Fault State :=
  match a with
  | .acquire l =>
    match s.lock l with
    | none => .ok ((s.setLock l (some c) c (s.noff c + 1)).setTodo c rest)
    | some d => if d = c then .error (.panic .acquire) else .ok s
  | .release l =>
    if s.lock l ≠ some c then .error (.panic .release)
    else if s.noff c < 1 then .error (.panic .popOff)
    else .ok ((s.setLock l none c (s.noff c - 1)).setTodo c rest)
  | .setRunnable p => .ok ((s.setProc p { s.proc p with state := .runnable }).setTodo c rest)
  | .setSleeping p chan =>
    .ok ((s.setProc p { s.proc p with chan := chan, state := .sleeping }).setTodo c rest)
  | .setZombie p status =>
    .ok ((s.setProc p { s.proc p with xstate := status, state := .zombie }).setTodo c rest)
  | .sched =>
    match s.cur c with
    | none => .error .nullProc
    | some p =>
      if s.lock (.proc p) ≠ some c then .error (.panic .schedLock)
      else if s.noff c ≠ 1 then .error (.panic .schedLocks)
      else if (s.proc p).state = .running then .error (.panic .schedRunning)
      else .ok ((s.setCtx (.proc p) (some rest)).setTodo c [load (.sched c)])
  | .load t =>
    match s.ctx t with
    | none => .error .staleContext
    | some code =>
      .ok { (s.setCtx t none).setTodo c code with who := Function.update s.who c t }
  | .clearChan p => .ok ((s.setProc p { s.proc p with chan := .null }).setTodo c rest)
  | .wakeupFrom chan j =>
    if j < s.nproc then
      if s.cur c = some j then .ok (s.setTodo c (wakeupFrom chan (j + 1) :: rest))
      else .ok (s.setTodo c (acquire (.proc j) :: wakeupAt chan j :: release (.proc j) ::
        wakeupFrom chan (j + 1) :: rest))
    else .ok (s.setTodo c rest)
  | .wakeupAt chan j => .ok ((s.setProc j ((s.proc j).wakeup chan)).setTodo c rest)
  | .killFrom pid j =>
    if j < s.nproc then .ok (s.setTodo c (acquire (.proc j) :: killAt pid j :: rest))
    else .ok (s.setTodo c (ret (.kill false) :: rest))
  | .killAt pid j =>
    if (s.proc j).pid = pid then
      .ok ((s.setProc j (s.proc j).kill).setTodo c
        (release (.proc j) :: ret (.kill true) :: rest))
    else .ok (s.setTodo c (release (.proc j) :: killFrom pid (j + 1) :: rest))
  | .allocFrom p j =>
    if j < s.nproc then .ok (s.setTodo c (acquire (.proc j) :: allocAt p j :: rest))
    else .ok (s.setTodo c (ret (.fork none) :: rest))
  | .allocAt p j =>
    if (s.proc j).state = .unused then
      .ok { (s.setProc j { s.proc j with pid := s.nextpid, state := .used }).setTodo c
        (allocMemory p j :: rest) with nextpid := s.nextpid + 1 }
    else .ok (s.setTodo c (release (.proc j) :: allocFrom p (j + 1) :: rest))
  | .allocMemory p j =>
    if ok then
      .ok (((s.setProc j { s.proc j with memory := true }).setCtx (.proc j)
        (some [forkret])).setTodo c (copyMemory p j :: rest))
    else .ok ((s.setProc j {}).setTodo c (release (.proc j) :: ret (.fork none) :: rest))
  | .copyMemory p j =>
    if ok then .ok (s.setTodo c (forkEnd p j (s.proc j).pid ++ rest))
    else .ok ((s.setProc j {}).setTodo c (release (.proc j) :: ret (.fork none) :: rest))
  | .setParent p j => .ok ((s.setProc j { s.proc j with parent := some p }).setTodo c rest)
  | .startChild _ j => .ok ((s.setProc j { s.proc j with state := .runnable }).setTodo c rest)
  | .reparentFrom p j =>
    if j < s.nproc then
      if (s.proc j).parent = some p then
        .ok ((s.setProc j { s.proc j with parent := some s.initproc }).setTodo c
          (wakeup (.proc s.initproc) ++ reparentFrom p (j + 1) :: rest))
      else .ok (s.setTodo c (reparentFrom p (j + 1) :: rest))
    else .ok (s.setTodo c rest)
  | .wakeupParent p => .ok (s.setTodo c (wakeup (chanOf (s.proc p).parent) ++ rest))
  | .zombieExit => .error (.panic .zombieExit)
  | .waitFrom p addr j havekids =>
    if j < s.nproc then
      if (s.proc j).parent = some p then
        .ok (s.setTodo c (acquire (.proc j) :: waitAt p addr j :: rest))
      else .ok (s.setTodo c (waitFrom p addr (j + 1) havekids :: rest))
    else if havekids = false ∨ (s.proc p).killed then
      .ok (s.setTodo c (release .wait :: ret (.wait none) :: rest))
    else .ok (s.setTodo c (sleep p (.proc p) .wait ++ waitFrom p addr 0 false :: rest))
  | .waitAt p addr j =>
    if (s.proc j).state = .zombie then
      if addr ≠ 0 ∧ ok = false then
        .ok (s.setTodo c (release (.proc j) :: release .wait :: ret (.wait none) :: rest))
      else
        .ok ((s.setProc j {}).setTodo c (release (.proc j) :: release .wait ::
          ret (.wait (some ((s.proc j).pid, (s.proc j).xstate))) :: rest))
    else .ok (s.setTodo c (release (.proc j) :: waitFrom p addr (j + 1) true :: rest))
  | .scheduleFrom j =>
    if j < s.nproc then .ok (s.setTodo c [acquire (.proc j), scheduleAt j])
    else .ok (s.setTodo c [scheduleFrom 0])
  | .scheduleAt j =>
    if (s.proc j).state = .runnable then
      .ok ((((s.setProc j { s.proc j with state := .running }).setCur c (some j)).setCtx (.sched c)
        (some (afterProc j))).setTodo c [load (.proc j)])
    else .ok (s.setTodo c [release (.proc j), scheduleFrom (j + 1)])
  | .leaveProc => .ok ((s.setCur c none).setTodo c rest)
  | .forkret =>
    match s.cur c with
    | none => .error .nullProc
    | some p => .ok (s.setTodo c (release (.proc p) :: rest))
  | .timer =>
    match s.cur c with
    | none => .ok (s.setTodo c rest)
    | some p =>
      if (s.proc p).state = .running then .ok (s.setTodo c (yield p ++ rest))
      else .ok (s.setTodo c rest)
  | .ret _ => .ok (s.setTodo c rest)

/-- What a process may call between two actions of this file, with the locks it may hold. -/
inductive Call where
  | yield
  | fork
  | exit (status : ℤ)
  | wait (addr : ℕ)
  | kill (pid : Pid)
  | wakeup (chan : Chan)
  | sleep (chan : Chan) (k : ℕ)
  | acquire (k : ℕ)
  | release (k : ℕ)
  deriving DecidableEq, Repr

/-- System calls and `yield` hold no lock, `sleep` holds the one it is given. -/
def Call.enabled (s : State) (c : ℕ) : Call → Bool
  | .yield | .fork | .exit _ | .wait _ | .kill _ => s.noff c = 0
  | .wakeup _ => true
  | .sleep _ k => s.noff c = 1 ∧ s.lock (.other k) = some c
  | .acquire k => s.lock (.other k) ≠ some c
  | .release k => s.lock (.other k) = some c

def Call.code (p : ℕ) : Call → List Act
  | .yield => Sched.yield p
  | .fork => Sched.fork p
  | .exit status => Sched.exit p status
  | .wait addr => Sched.wait p addr
  | .kill pid => Sched.kill pid
  | .wakeup chan => Sched.wakeup chan
  | .sleep chan k => Sched.sleep p chan (.other k)
  | .acquire k => [.acquire (.other k)]
  | .release k => [.release (.other k)]

/-- Interrupts: a device wakes its sleepers under its lock; the timer may make the process
yield. -/
inductive Interrupt where
  | device (chan : Chan) (k : ℕ)
  | timer
  deriving DecidableEq, Repr

def Interrupt.code : Interrupt → List Act
  | .device chan k => acquire (.other k) :: Sched.wakeup chan ++ [release (.other k)]
  | .timer => [.timer]

inductive Event where
  | run (c : ℕ) (ok : Bool)
  | call (c : ℕ) (f : Call)
  | interrupt (c : ℕ) (h : Interrupt)
  deriving DecidableEq, Repr

/-- CPU `c` takes its next action, its idle process starts a call, or an interrupt arrives at it
while it holds no lock. -/
def State.step (s : State) : Event → Except Fault State
  | .run c ok =>
    match s.todo c with
    | [] => .ok s
    | a :: rest => s.act c ok a rest
  | .call c f =>
    match s.todo c, s.cur c with
    | [], some p =>
      if f.enabled s c then
        match f with
        | .exit _ => if p = s.initproc then .error (.panic .initExiting)
          else .ok (s.setTodo c (f.code p))
        | _ => .ok (s.setTodo c (f.code p))
      else .ok s
    | _, _ => .ok s
  | .interrupt c h =>
    if s.noff c = 0 then .ok (s.setTodo c (h.code ++ s.todo c)) else .ok s

/-- After `userinit`: one process, which is ready to run, and all CPUs in their schedulers. -/
def State.boot (nproc : ℕ) : State where
  nproc := nproc
  initproc := 0
  nextpid := 2
  proc := Function.update (fun _ => {}) 0 { state := .runnable, pid := 1, memory := true }
  lock := fun _ => none
  noff := fun _ => 0
  cur := fun _ => none
  who := .sched
  todo := fun _ => [scheduleFrom 0]
  ctx := Function.update (fun _ => none) (.proc 0) (some [forkret])

/-- The states that some interleaving reaches. -/
def Reachable (s : State) : Prop :=
  ∃ nproc events, Runs.run State.step (State.boot nproc) events = .ok s

end Xv6.Sched
