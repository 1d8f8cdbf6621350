import Xv6.Sched.Model

/-! Interrupts and the depth of spinlocks, `spinlock.c` with `sched` and `kerneltrap`. Here a thread
is seen at the grain of the accesses to `noff`, `intena` and the interrupt-enable flag of its CPU.
The state of a process is written together with the switch that follows: `p->lock` is held from one
to the other. Which entry of the table the scheduler looks at next is left open. -/
namespace Xv6.Interrupts
open Sched (Lock ProcState)

/-- What a thread does next. -/
inductive Act where
  /-- `int old = intr_get()` in `push_off` -/
  | intrGet
  /-- the rest of `push_off` -/
  | pushOff (old : Bool)
  | popOff
  /-- `acquire` after its `push_off` -/
  | take (lk : Lock)
  /-- `release` before its `pop_off` -/
  | drop (lk : Lock)
  /-- `p->state = state; sched()`, up to the switch -/
  | sched (state : ProcState)
  /-- `mycpu()->intena = intena` at the end of `sched` -/
  | restore (intena : Bool)
  /-- the scheduler with `p->lock` held: the test of `p->state` and the switch -/
  | pick (p : ℕ)
  deriving DecidableEq

open Act

def acquire (lk : Lock) : List Act := [intrGet, take lk]

def release (lk : Lock) : List Act := [drop lk, popOff]

def myproc : List Act := [intrGet, popOff]

def yield (p : ℕ) : List Act :=
  myproc ++ acquire (.proc p) ++ myproc ++ [sched .runnable] ++ release (.proc p)

def sleep (p : ℕ) (lk : Lock) : List Act :=
  myproc ++ acquire (.proc p) ++ release lk ++ myproc ++ [sched .sleeping] ++
    release (.proc p) ++ acquire lk

/-- A new process starts here, with `p->lock` held by the scheduler. -/
def forkret (p : ℕ) : List Act := myproc ++ release (.proc p)

/-- The body of the loop of `scheduler`. -/
def look (p : ℕ) : List Act := acquire (.proc p) ++ [pick p] ++ release (.proc p)

/-- What `kerneltrap` interrupted. -/
structure Frame where
  todo : List Act
  outer : Option Bool

/-- A kernel stack. `depth` is how many more times the thread has called `push_off` than `pop_off`;
`outer` is the interrupt-enable flag at the call that took the depth from zero. Neither is in the
source; `outer` is kept for the threads of processes only. -/
structure Thread where
  todo : List Act
  frames : List Frame
  depth : ℕ
  outer : Option Bool

/-- `struct cpu`, with `intr` for the flag `SSTATUS_SIE` and with the stack of its scheduler. -/
structure Cpu where
  intr : Bool
  noff : ℕ
  intena : Bool
  proc : Option ℕ
  scheduler : Thread

structure Proc where
  state : ProcState
  thread : Thread

structure State where
  cpus : ℕ → Cpu
  procs : ℕ → Proc
  /-- the CPU that holds a lock -/
  locks : Lock → Option ℕ

def Cpu.pushOff (k : Cpu) (old : Bool) : Cpu :=
  { k with intr := false, intena := if k.noff = 0 then old else k.intena, noff := k.noff + 1 }

def Cpu.popOff (k : Cpu) : Except Stop Cpu :=
  if k.intr then .error (.panic .popOffInterruptible)
  else if k.noff < 1 then .error (.panic .popOff)
  else
    let k := { k with noff := k.noff - 1 }
    .ok (if k.noff = 0 ∧ k.intena then { k with intr := true } else k)

/-- The thread that a CPU executes. -/
def State.current (s : State) (c : ℕ) : Thread :=
  match (s.cpus c).proc with
  | none => (s.cpus c).scheduler
  | some p => (s.procs p).thread

/-- The CPU `c` gets the registers `k` and the thread it executes becomes `T`. -/
def State.resume (s : State) (c : ℕ) (k : Cpu) (T : Thread) : State :=
  match k.proc with
  | none => { s with cpus := Function.update s.cpus c { k with scheduler := T } }
  | some p => { s with
      cpus := Function.update s.cpus c k
      procs := Function.update s.procs p { s.procs p with thread := T } }

def State.setLock (s : State) (lk : Lock) (h : Option ℕ) : State :=
  { s with locks := Function.update s.locks lk h }

def State.setProcState (s : State) (p : ℕ) (state : ProcState) : State :=
  { s with procs := Function.update s.procs p { s.procs p with state := state } }

def State.setProc (s : State) (c : ℕ) (p : Option ℕ) : State :=
  { s with cpus := Function.update s.cpus c { s.cpus c with proc := p } }

/-- The thread on `c` takes its next step; `rest` is what remains after it. -/
def State.exec (s : State) (c : ℕ) (rest : List Act) : Act → Except Stop State
  | intrGet =>
    .ok (s.resume c (s.cpus c) { s.current c with todo := pushOff (s.cpus c).intr :: rest })
  | pushOff old =>
    .ok (s.resume c ((s.cpus c).pushOff old)
      { s.current c with todo := rest, depth := (s.current c).depth + 1 })
  | popOff =>
    match (s.cpus c).popOff with
    | .error e => .error e
    | .ok k => .ok (s.resume c k { s.current c with todo := rest, depth := (s.current c).depth - 1 })
  | take lk =>
    if s.locks lk = some c then .error (.panic .acquire)
    else if s.locks lk = none then
      .ok ((s.setLock lk (some c)).resume c (s.cpus c) { s.current c with todo := rest })
    else .error .blocked
  | drop lk =>
    if s.locks lk = some c then
      .ok ((s.setLock lk none).resume c (s.cpus c) { s.current c with todo := rest })
    else .error (.panic .release)
  | sched state =>
    match (s.cpus c).proc with
    | none => .error .blocked
    | some p =>
      if s.locks (.proc p) ≠ some c then .error (.panic .schedLock)
      else if (s.cpus c).noff ≠ 1 then .error (.panic .schedLocks)
      else if (s.cpus c).intr then .error (.panic .schedInterruptible)
      else
        .ok (((s.resume c (s.cpus c)
          { s.current c with todo := restore (s.cpus c).intena :: rest }).setProcState p state).setProc
            c none)
  | restore intena =>
    .ok (s.resume c { s.cpus c with intena := intena } { s.current c with todo := rest })
  | pick p =>
    match (s.cpus c).proc with
    | some _ => .error .blocked
    | none =>
      let s' := s.resume c (s.cpus c) { s.current c with todo := rest }
      if (s.procs p).state = .runnable then .ok ((s'.setProcState p .running).setProc c (some p))
      else .ok s'

/-- What kernel code calls. -/
inductive Call where
  | acquire (lk : Lock)
  | release (lk : Lock)
  | pushOff
  | popOff
  | sleep (lk : Lock)
  | yield
  deriving DecidableEq

/-- The body of a call, for the thread of `proc`. Only processes sleep and yield. -/
def Call.code (proc : Option ℕ) : Call → Option (List Act)
  | .acquire lk => some (Interrupts.acquire lk)
  | .release lk => some (Interrupts.release lk)
  | .pushOff => some [intrGet]
  | .popOff => some [.popOff]
  | .sleep lk => proc.map fun p => Interrupts.sleep p lk
  | .yield => proc.map Interrupts.yield

/-- The calls that need a call of `push_off` or `acquire` before them. -/
def Call.nested : Call → Bool
  | .release _ => true
  | .popOff => true
  | .sleep _ => true
  | _ => false

inductive Event where
  /-- the thread on `c` takes its next step -/
  | run (c : ℕ)
  /-- the thread on `c`, done with what it called before, calls a function -/
  | call (c : ℕ) (f : Call)
  /-- it calls `intr_on` or `intr_off`, as `usertrap` and `usertrapret` do, outside any lock -/
  | intr (c : ℕ) (on : Bool)
  /-- with `p->lock` held it makes `p` runnable: `fork` and `wakeup` -/
  | wake (c p : ℕ)
  /-- a device or the timer interrupts -/
  | trap (c : ℕ)
  /-- `kerneltrap` returns -/
  | sret (c : ℕ)
  /-- the scheduler comes to the entry `p` -/
  | look (c p : ℕ)
  /-- the scheduler is at the head of its outer loop -/
  | loop (c : ℕ)

/-- The thread on `c` is in kernel code of its own choice: not inside one of the functions above,
and not in the loop of the scheduler. -/
def State.free (s : State) (c : ℕ) : Prop :=
  (s.current c).todo = [] ∧ ((s.cpus c).proc = none → (s.current c).frames ≠ [])

instance (s : State) (c : ℕ) : Decidable (s.free c) :=
  inferInstanceAs (Decidable (_ ∧ _))

/-- The scheduler of `c` is at the head of one of its loops. -/
def State.idle (s : State) (c : ℕ) : Prop :=
  (s.cpus c).proc = none ∧ (s.current c).todo = [] ∧ (s.current c).frames = []

instance (s : State) (c : ℕ) : Decidable (s.idle c) :=
  inferInstanceAs (Decidable (_ ∧ _))

/-- What a call on `c` records: a process outside any lock notes the flag. -/
def State.outerAt (s : State) (c : ℕ) : Option Bool :=
  if (s.current c).depth = 0 ∧ (s.cpus c).proc ≠ none then some (s.cpus c).intr
  else (s.current c).outer

def step (s : State) : Event → Except Stop State
  | .run c =>
    match (s.current c).todo with
    | [] => .error .blocked
    | a :: rest => s.exec c rest a
  | .call c f =>
    if s.free c ∧ (f.nested → 0 < (s.current c).depth) then
      match f.code (s.cpus c).proc with
      | none => .error .blocked
      | some code =>
        .ok (s.resume c (s.cpus c) { s.current c with todo := code, outer := s.outerAt c })
    else .error .blocked
  | .intr c on =>
    if s.free c ∧ (s.current c).depth = 0 then
      .ok (s.resume c { s.cpus c with intr := on } (s.current c))
    else .error .blocked
  | .wake c p =>
    if s.free c ∧ s.locks (.proc p) = some c ∧
        ((s.procs p).state = .unused ∨ (s.procs p).state = .sleeping) then
      .ok (s.setProcState p .runnable)
    else .error .blocked
  | .trap c =>
    if (s.cpus c).intr then
      .ok (s.resume c { s.cpus c with intr := false } { s.current c with
        todo := []
        outer := none
        frames := ⟨(s.current c).todo, (s.current c).outer⟩ :: (s.current c).frames })
    else .error .blocked
  | .sret c =>
    match (s.current c).frames with
    | [] => .error .blocked
    | f :: fs =>
      if (s.current c).todo = [] ∧ (s.current c).depth = 0 then
        .ok (s.resume c { s.cpus c with intr := true }
          ⟨f.todo, fs, (s.current c).depth, f.outer⟩)
      else .error .blocked
  | .look c p =>
    if s.idle c then .ok (s.resume c (s.cpus c) { s.current c with todo := look p })
    else .error .blocked
  | .loop c =>
    if s.idle c then .ok (s.resume c { s.cpus c with intr := true } (s.current c))
    else .error .blocked

/-- Every CPU is about to enter `scheduler`, and every process is new. -/
def init : State where
  cpus _ := ⟨false, 0, false, none, ⟨[], [], 0, none⟩⟩
  procs p := ⟨.unused, ⟨forkret p, [], 1, none⟩⟩
  locks _ := none

end Xv6.Interrupts
