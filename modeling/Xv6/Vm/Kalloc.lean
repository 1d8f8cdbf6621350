import Xv6.Lib.Bytes
import Xv6.Lib.Program
import Xv6.Param
import Xv6.Vm.Pte

/-! Physical pages and their allocator, `kalloc.c`. The free list is a list of page addresses:
the links stored inside free pages are not modelled, since `kalloc` overwrites them. -/
namespace Xv6
open Bytes Program

/-- What the linker script fixes: text ends with the trampoline page, and the image leaves
room for the kernel's own tables. -/
class Image where
  trampoline : ℕ
  etext : ℕ
  kend : ℕ
  base : kernbase ≤ trampoline
  aligned : trampoline % pgsize = 0
  text : etext = trampoline + pgsize
  data : etext ≤ kend
  room : kend + 512 * pgsize ≤ phystop

export Image (trampoline etext kend)

/-- A kernel image of 34 pages. -/
abbrev smallImage : Image where
  trampoline := 0x80007000
  etext := 0x80008000
  kend := 0x80022000
  base := by decide
  aligned := by decide
  text := by decide
  data := by decide
  room := by decide

/-- Memory below the processes: page contents by physical address, `kmem.freelist` and
`krefs.count`. -/
structure Machine where
  mem : ℕ → Buf
  freelist : List ℕ
  count : ℕ → ℕ

abbrev Kernel (α : Type) := Prog Machine Panic α

def Machine.setPage (s : Machine) (pa : ℕ) (b : Buf) : Machine :=
  { s with mem := Function.update s.mem pa b }

def Machine.setCount (s : Machine) (i n : ℕ) : Machine :=
  { s with count := Function.update s.count i n }

/-- Fill a page with one byte. -/
def memset (pa : ℕ) (c : UInt8) : Kernel Unit := modify (·.setPage pa fun _ => c)

def refindex (pa : ℕ) : Kernel ℕ := do
  if pa < kernbase ∨ phystop ≤ pa ∨ pa % pgsize ≠ 0 then throw .refindex
  return (pa - kernbase) / pgsize

def kfree [Image] (pa : ℕ) : Kernel Unit := do
  if pa % pgsize ≠ 0 ∨ pa < kend ∨ phystop ≤ pa then throw .kfree
  let i ← refindex pa
  let s ← get
  if s.count i < 1 then throw .kfreeRef
  set (s.setCount i (s.count i - 1))
  if s.count i - 1 = 0 then
    memset pa 1
    modify fun s => { s with freelist := pa :: s.freelist }

def krefinc (pa : ℕ) : Kernel Unit := do
  let i ← refindex pa
  let s ← get
  if s.count i < 1 then throw .krefinc
  set (s.setCount i (s.count i + 1))

def krefcount (pa : ℕ) : Kernel ℕ := do
  let i ← refindex pa
  return (← get).count i

/-- `none` is the null pointer of the source. -/
def kalloc : Kernel (Option ℕ) := do
  let s ← get
  match s.freelist with
  | [] => return none
  | r :: rest =>
    set { s with freelist := rest }
    let i ← refindex r
    if s.count i ≠ 0 then throw .kallocRef
    modify (·.setCount i 1)
    memset r 5
    return some r

/-- The loop of `freerange`: `n` pages from `p` on. -/
def freerangeLoop [Image] : ℕ → ℕ → Kernel Unit
  | 0, _ => return ()
  | n + 1, p => do
    let i ← refindex p
    modify (·.setCount i 1)
    kfree p
    freerangeLoop n (p + pgsize)

def freerange [Image] (paStart paEnd : ℕ) : Kernel Unit :=
  let p := pgroundup paStart
  freerangeLoop ((paEnd - p) / pgsize) p

def kinit [Image] : Kernel Unit := freerange kend phystop

end Xv6
