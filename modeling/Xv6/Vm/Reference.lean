import Xv6.Vm.CopySpec
import Xv6.Vm.System

/-! The reference machine. A process has a memory of its own: `fork` copies it, and no
operation reaches the memory of another process. Calls that allocate may fail at any time. -/
namespace Xv6
open Bytes

/-- A process of the reference machine. `image` is the memory that `exec` is building. -/
structure RefProc where
  state : ProcState := .unused
  parent : Option ℕ := none
  xstate : ℕ := 0
  pid : ℕ := 0
  sz : ℕ := 0
  space : Space := fun _ => none
  inExec : Bool := false
  args : List (List UInt8) := []
  image : Option Space := none
  imageSz : ℕ := 0

@[ext] structure Ref where
  proc : ℕ → RefProc
  nextpid : ℕ
  initproc : Option ℕ

def Ref.setProc (s : Ref) (i : ℕ) (p : RefProc) : Ref :=
  { s with proc := Function.update s.proc i p }

def Ref.setSpace (s : Ref) (i : ℕ) (V : Space) : Ref := s.setProc i { s.proc i with space := V }

/-- A child of `i` goes to the first process. -/
def RefProc.reparent (p : RefProc) (i : ℕ) (initproc : Option ℕ) : RefProc :=
  if p.parent = some i then { p with parent := initproc } else p

/-- Children go to the first process, the process becomes a zombie. -/
def Ref.exit (s : Ref) (i status : ℕ) : Ref :=
  { s with proc := fun j => (s.proc j).reparent i s.initproc }.setProc i
    { (s.proc i).reparent i s.initproc with xstate := status, state := .zombie }

/-- `exec` gives up. -/
def Ref.abort (s : Ref) (i : ℕ) : Ref :=
  s.setProc i { s.proc i with inExec := false, args := [], image := none, imageSz := 0 }

/-- New pages are zero. -/
def growSpace (V : Space) (oldsz newsz : ℕ) : Space := fun w =>
  if npages oldsz ≤ w ∧ w < npages newsz then some zeroPage else V w

def shrinkSpace (V : Space) (oldsz newsz : ℕ) : Space := fun w =>
  if npages newsz ≤ w ∧ w < npages oldsz then none else V w

/-- The page is no longer accessible to the user. -/
def clearUser (V : Space) (w : ℕ) : Space := fun x =>
  if x = w then (V x).map fun pg => { pg with user := false } else V x

/-- The bytes of a range, if the user can read all of them. -/
def readSpace (V : Space) : ℕ → ℕ → Option (List UInt8)
  | _, 0 => some []
  | va, n + 1 =>
    match getByte V va with
    | none => none
    | some b => (readSpace V (va + 1) n).map (b :: ·)

/-- The string at an address with its final 0, if it ends within `n` bytes. -/
def readString (V : Space) : ℕ → ℕ → Option (List UInt8)
  | _, 0 => none
  | va, n + 1 =>
    match getByte V va with
    | none => none
    | some b => if b = 0 then some [0] else (readString V (va + 1) n).map (b :: ·)

def readWord (V : Space) (sz addr : ℕ) : Option ℕ :=
  if sz ≤ addr ∨ sz < (addr + 8) % 2 ^ 64 then none
  else (readSpace V addr 8).map fun bs => getLE (fun k => bs.getD k 0) 0 8

/-- The strings of an argument vector with room for `n` more entries. -/
def readArgs (V : Space) (sz uargv : ℕ) : ℕ → Option (List (List UInt8))
  | 0 => none
  | n + 1 =>
    match readWord V sz ((uargv + 8 * (maxarg - (n + 1))) % 2 ^ 64) with
    | none => none
    | some uarg =>
      if uarg = 0 then some []
      else match readString V uarg pgsize with
        | none => none
        | some str => (readArgs V sz uargv n).map (str :: ·)

/-- The bytes of a segment of `sz` bytes from offset `i` on, in `k` reads; `none` when the file
is too short. -/
def segmentBytes (readi : ℕ → ℕ → List UInt8) (offset sz : ℕ) : ℕ → ℕ → Option (List UInt8)
  | 0, _ => some []
  | k + 1, i =>
    let n := if sz - i < pgsize then sz - i else pgsize
    let bytes := (readi ((offset + i) % 2 ^ 32) n).take n
    if bytes.length ≠ n then none
    else (segmentBytes readi offset sz k (i + pgsize)).map (bytes ++ ·)

/-- The argument strings are pushed on the stack. -/
def pushStrings (stackbase : ℕ) :
    List (List UInt8) → Space → ℕ → List ℕ → Option (Space × ℕ × List ℕ)
  | [], V, sp, ustack => some (V, sp, ustack)
  | str :: rest, V, sp, ustack =>
    if maxarg ≤ ustack.length ∨ pushSp sp str.length < stackbase then none
    else pushStrings stackbase rest (putBytes V (pushSp sp str.length) str)
      (pushSp sp str.length) (ustack ++ [pushSp sp str.length])

/-- The stack at the top of a new image, and the number of arguments. -/
def buildStack (V : Space) (sz : ℕ) (args : List (List UInt8)) : Option (Space × ℕ) :=
  match pushStrings (sz - pgsize) args (clearUser V (sz / pgsize - 2)) sz [] with
  | none => none
  | some (V', sp, ustack) =>
    if pushSp sp ((ustack.length + 1) * 8) < sz - pgsize then none
    else some (putBytes V' (pushSp sp ((ustack.length + 1) * 8)) (wordBytes (ustack ++ [0])),
      ustack.length)

/-- `copyout` may stop early; it has then written a part of the bytes. -/
def RefCopyout (s : Ref) (i va : ℕ) (src : List UInt8) (ok : Bool) (t : Ref) : Prop :=
  ∃ m ≤ src.length, (ok = true ↔ m = src.length) ∧ UserRange (s.proc i).space va m ∧
    t = s.setSpace i (putBytes (s.proc i).space va (src.take m))

def RefGrow (s : Ref) (i : ℕ) (n : ℤ) (ok : Bool) (t : Ref) : Prop :=
  let p := s.proc i
  let newsz := ((p.sz : ℤ) + n).toNat
  if 0 < n then
    (ok = true ∧ t = s.setProc i { p with sz := newsz, space := growSpace p.space p.sz newsz }) ∨
      (ok = false ∧ t = s)
  else if n < 0 ∧ 0 ≤ (p.sz : ℤ) + n then
    ok = true ∧ t = s.setProc i { p with sz := newsz, space := shrinkSpace p.space p.sz newsz }
  else ok = true ∧ t = s

/-- The child has the first unused entry and a copy of the memory of its parent. -/
def RefFork (s : Ref) (i : ℕ) (r : Option ℕ) (t : Ref) : Prop :=
  match (List.range nproc).find? fun j => (s.proc j).state = .unused with
  | none => r = none ∧ t = s
  | some j =>
    (r = none ∧ t = { s with nextpid := s.nextpid + 1 }) ∨
    (r = some s.nextpid ∧ t = { s with nextpid := s.nextpid + 1 }.setProc j
      { s.proc j with
        state := .runnable, parent := some i, pid := s.nextpid, sz := (s.proc i).sz,
        space := (s.proc i).space })

/-- The entry of a child that has been waited for is free again. -/
def RefWait (s : Ref) (i addr : ℕ) (r : WaitResult) (t : Ref) : Prop :=
  match (List.range nproc).find? fun j =>
      (s.proc j).parent = some i ∧ (s.proc j).state = .zombie with
  | some j =>
    (addr = 0 ∧ r = .child (s.proc j).pid ∧ t = s.setProc j {}) ∨
    (∃ ok u, RefCopyout s i addr (intBytes (s.proc j).xstate) ok u ∧
      ((ok = true ∧ r = .child (s.proc j).pid ∧ t = u.setProc j {}) ∨
        (ok = false ∧ r = .fail ∧ t = u)))
  | none =>
    t = s ∧ r = if (List.range nproc).any fun j => (s.proc j).parent = some i then .sleep
      else .fail

/-- A segment is loaded into the image `V`. -/
def RefSegment (s : Ref) (i : ℕ) (V : Space) (ph : Proghdr) (readi : ℕ → ℕ → List UInt8)
    (ok : Bool) (t : Ref) : Prop :=
  let p := s.proc i
  let sz := ph.vaddr.toNat + ph.memsz.toNat
  if ph.type ≠ elfProgLoad then ok = true ∧ t = s
  else
    (ok = true ∧ ph.filesz ≤ ph.memsz ∧ ph.vaddr.toNat % pgsize = 0 ∧
      ∃ bytes, segmentBytes readi (ph.off.toNat % 2 ^ 32) (ph.filesz.toNat % 2 ^ 32)
          ((ph.filesz.toNat % 2 ^ 32 + (pgsize - 1)) / pgsize) 0 = some bytes ∧
        t = s.setProc i { p with
          image := some (putBytes (growSpace V p.imageSz sz) ph.vaddr.toNat bytes)
          imageSz := max p.imageSz sz }) ∨
    (ok = false ∧ t = s.abort i)

/-- The image with its stack becomes the memory of the process. -/
def RefCommit (s : Ref) (i : ℕ) (V : Space) (r : Option ℕ) (t : Ref) : Prop :=
  let p := s.proc i
  let sz := npages p.imageSz * pgsize
  (∃ V' argc, buildStack (growSpace V sz (sz + 2 * pgsize)) (sz + 2 * pgsize) p.args =
      some (V', argc) ∧ r = some argc ∧
    t = s.setProc i { p with
      sz := sz + 2 * pgsize, space := V', inExec := false, args := [], image := none,
      imageSz := 0 }) ∨
  (r = none ∧ t = s.abort i)

/-- One operation of the reference machine. -/
def RefPerform (s : Ref) (op : Op) (out : Out) (t : Ref) : Prop :=
  match op with
  | .load i va =>
    match getByte (s.proc i).space va with
    | some b => out = .byte b ∧ t = s
    | none => out = .killed ∧ t = s.exit i (2 ^ 32 - 1)
  | .store i va b =>
    (out = .done true ∧ getByte (s.proc i).space va ≠ none ∧
      t = s.setSpace i (putBytes (s.proc i).space va [b])) ∨
    (out = .killed ∧ t = s.exit i (2 ^ 32 - 1))
  | .copyin i va len => out = .bytes (readSpace (s.proc i).space va len) ∧ t = s
  | .copyout i va src => ∃ ok, out = .done ok ∧ RefCopyout s i va src ok t
  | .growproc i n => ∃ ok, out = .done ok ∧ RefGrow s i n ok t
  | .fork i => ∃ r, out = .pid r ∧ RefFork s i r t
  | .exit i status => out = .killed ∧ t = s.exit i status
  | .wait i addr => ∃ r, out = .waited r ∧ RefWait s i addr r t
  | .sysExec i uargv =>
    (out = .done true ∧ ∃ args, readArgs (s.proc i).space (s.proc i).sz uargv maxarg = some args ∧
      t = s.setProc i { s.proc i with inExec := true, args := args }) ∨
    (out = .done false ∧ t = s)
  | .execTable i =>
    (out = .done true ∧ t = s.setProc i { s.proc i with image := some fun _ => none, imageSz := 0 }) ∨
    (out = .done false ∧ t = s.abort i)
  | .execSegment i ph readi => ∃ V ok, (s.proc i).image = some V ∧ out = .done ok ∧
      RefSegment s i V ph readi ok t
  | .execCommit i _ => ∃ V r, (s.proc i).image = some V ∧ out = .pid r ∧ RefCommit s i V r t
  | .execFail i => out = .done false ∧ t = s.abort i
  | .pipealloc _ => t = s
  | .pipeclose _ _ => t = s

/-- The process runs in user mode or in a call other than `exec`. -/
def RefRunning (s : Ref) (i : ℕ) : Prop :=
  i < nproc ∧ (s.proc i).state = .runnable ∧ (s.proc i).inExec = false

/-- When an operation may happen; pipes are not part of the reference machine. -/
def RefEnabled (s : Ref) : Op → Prop
  | .load i _ | .store i _ _ | .copyin i _ _ | .copyout i _ _ | .fork i | .exit i _
  | .wait i _ | .sysExec i _ => RefRunning s i
  | .growproc i n => RefRunning s i ∧ -2 ^ 31 ≤ n ∧ n < 2 ^ 31
  | .execTable i => i < nproc ∧ (s.proc i).inExec = true ∧ (s.proc i).image = none
  | .execSegment i _ _ | .execCommit i _ =>
    i < nproc ∧ (s.proc i).inExec = true ∧ (s.proc i).image ≠ none
  | .execFail i => i < nproc ∧ (s.proc i).inExec = true
  | .pipealloc _ | .pipeclose _ _ => True

def RefStep (s : Ref) (op : Op) (out : Out) (t : Ref) : Prop :=
  (RefEnabled s op ∧ RefPerform s op out t) ∨ (¬RefEnabled s op ∧ out = .idle ∧ t = s)

/-- The memory of the first process: one page with `initcode`. -/
def initSpace : Space := putBytes (fun v => if v = 0 then some zeroPage else none) 0 initcode

/-- The reference machine after booting. -/
def refBoot : Ref where
  proc := Function.update (fun _ => {}) 0
    { state := .runnable, pid := 1, sz := pgsize, space := initSpace }
  nextpid := 2
  initproc := some 0

/-- A run of the reference machine with the results of its operations. -/
inductive RefRun : Ref → List Op → List Out → Ref → Prop where
  | nil (s : Ref) : RefRun s [] [] s
  | cons {s t u : Ref} {op : Op} {ops : List Op} {out : Out} {outs : List Out}
      (h : RefStep s op out t) (rest : RefRun t ops outs u) :
      RefRun s (op :: ops) (out :: outs) u

end Xv6
