import Xv6.Lib.Blocks
import Xv6.Lib.Links
import Xv6.Lib.Runs
import Mathlib.Logic.Function.Basic

/-!
The user-level allocator, umalloc.c. Addresses are in bytes; a `Header` takes 16 of them. The
loops take fuel. The kernel's answers to `sbrk` come with the call that asks for them.
-/
namespace Xv6.Malloc
open Blocks Links

/-- `sizeof(Header)` -/
abbrev unit : ℕ := 16

/-- The fields of the headers, by address, and `freep`. Headers that are in use never overlap. -/
structure Heap where
  freep : ℕ
  ptr : ℕ → ℕ
  size : ℕ → ℕ

def Heap.setPtr (m : Heap) (p v : ℕ) : Heap := { m with ptr := Function.update m.ptr p v }

def Heap.setSize (m : Heap) (p v : ℕ) : Heap := { m with size := Function.update m.size p v }

/-- Where the search for the place of `bp` ends: between two blocks, or at the wrap point. -/
def Heap.placed (m : Heap) (bp p : ℕ) : Bool :=
  (p < bp ∧ bp < m.ptr p) ∨ (m.ptr p ≤ p ∧ (p < bp ∨ bp < m.ptr p))

/-- Join with the block after, if they touch. -/
def Heap.joinNext (m : Heap) (bp p : ℕ) : Heap :=
  if bp + unit * m.size bp = m.ptr p then
    let m := m.setSize bp ((m.size bp + m.size (m.ptr p)) % 2 ^ 32)
    m.setPtr bp (m.ptr (m.ptr p))
  else m.setPtr bp (m.ptr p)

/-- Join with the block before, if they touch. -/
def Heap.joinPrev (m : Heap) (bp p : ℕ) : Heap :=
  if p + unit * m.size p = bp then
    let m := m.setSize p ((m.size p + m.size bp) % 2 ^ 32)
    m.setPtr p (m.ptr bp)
  else m.setPtr p bp

/-- `free((void*)(bp + 1))` -/
def Heap.free (m : Heap) (fuel bp : ℕ) : Option Heap :=
  (seek (m.placed bp) m.ptr fuel m.freep).map fun p =>
    { (m.joinNext bp p).joinPrev bp p with freep := p }

/-- The allocator with its surroundings: the break, the blocks the program holds, the regions
obtained from `sbrk`, and what the last call of `malloc` returned. -/
structure State where
  heap : Heap
  brk : ℕ
  live : List Block
  obtained : List Block
  ret : ℕ

inductive Stop where
  /-- a loop has not ended yet -/
  | fuel
  /-- not a call the program may make, or not an answer `sbrk` may give -/
  | outside

/-- The break after `sbrk` for `nu` units has succeeded at the break `a`; `none` if it cannot
succeed. -/
abbrev Sbrk : Type := ℕ → ℕ → Option ℕ

/-- `sbrk` moves the break by the bytes asked for. -/
def exactSbrk : Sbrk := fun a nu => some (a + unit * nu)

/-- `morecore`, given the region at `a` -/
def State.morecore (s : State) (sbrk : Sbrk) (fuel nu a : ℕ) : Except Stop State :=
  let nu := if nu < 4096 then 4096 else nu
  if s.brk ≤ a then
    match sbrk a nu with
    | none => .error .outside
    | some brk =>
      match (s.heap.setSize a nu).free fuel a with
      | none => .error .fuel
      | some m => .ok { s with heap := m, brk := brk, obtained := ⟨a, nu⟩ :: s.obtained }
  else .error .outside

/-- Take `n` units from the block at `p`, the one after `prevp`. -/
def Heap.take (m : Heap) (n prevp p : ℕ) : Heap × ℕ :=
  if m.size p = n then ({ m.setPtr prevp (m.ptr p) with freep := prevp }, p)
  else
    let m := m.setSize p (m.size p - n)
    let p := p + unit * m.size p
    ({ m.setSize p n with freep := prevp }, p)

/-- Where the search of `malloc` stops, at `(prevp, p)`. -/
def Heap.fits (m : Heap) (n : ℕ) (x : ℕ × ℕ) : Bool := n ≤ m.size x.2 ∨ x.2 = m.freep

def Heap.advance (m : Heap) (x : ℕ × ℕ) : ℕ × ℕ := (x.2, m.ptr x.2)

/-- Once around from `freep` for a block of `n` units; where the search ends, with the block
before. -/
def Heap.find (m : Heap) (fuel n : ℕ) : Option (ℕ × ℕ) :=
  seek (m.fits n) m.advance fuel (m.freep, m.ptr m.freep)

def State.give (s : State) (n prevp p : ℕ) : State :=
  let r := s.heap.take n prevp p
  { s with heap := r.1, live := ⟨r.2, n⟩ :: s.live, ret := r.2 + unit }

/-- The loop of `malloc`, which goes around again after each `morecore`. -/
def State.search (s : State) (sbrk : Sbrk) (fuel n : ℕ) : List (Option ℕ) → Except Stop State
  | [] =>
    match s.heap.find fuel n with
    | none => .error .fuel
    | some (prevp, p) =>
      if n ≤ s.heap.size p then .ok (s.give n prevp p) else .error .outside
  | answer :: answers =>
    match s.heap.find fuel n with
    | none => .error .fuel
    | some (prevp, p) =>
      if n ≤ s.heap.size p then .ok (s.give n prevp p)
      else
        match answer with
        | none => .ok { s with ret := 0 }
        | some a =>
          match s.morecore sbrk fuel n a with
          | .error e => .error e
          | .ok s => s.search sbrk fuel n answers

def nunits (nbytes : ℕ) : ℕ := (nbytes + unit - 1) / unit + 1

/-- The first call makes the circle of `base` alone. -/
def Heap.start (m : Heap) (base : ℕ) : Heap :=
  if m.freep = 0 then ⟨base, Function.update m.ptr base base, Function.update m.size base 0⟩
  else m

def State.malloc (s : State) (sbrk : Sbrk) (base fuel nbytes : ℕ) (answers : List (Option ℕ)) :
    Except Stop State :=
  State.search { s with heap := s.heap.start base } sbrk fuel (nunits nbytes) answers

inductive Event where
  | malloc (nbytes fuel : ℕ) (answers : List (Option ℕ))
  | free (b : Block) (fuel : ℕ)
  /-- the program writes the byte `x` of a block it holds; headers there get any contents -/
  | write (x : ℕ) (ptr size : ℕ → ℕ)

/-- One call, as far as the program may make it: requests stay below 2^31 bytes, only live blocks
are freed, and only their usable bytes are written. -/
def step (base : ℕ) (s : State) : Event → Except Stop State
  | .malloc nbytes fuel answers =>
    if nunits nbytes * unit < 2 ^ 31 then s.malloc exactSbrk base fuel nbytes answers
    else .error .outside
  | .free b fuel =>
    if b ∈ s.live then
      match s.heap.free fuel b.start with
      | none => .error .fuel
      | some m => .ok { s with heap := m, live := s.live.erase b }
    else .error .outside
  | .write x ptr size =>
    if ∃ b ∈ s.live, b.start + unit ≤ x ∧ x < b.stop unit then
      .ok { s with heap := { s.heap with
        ptr := fun a => if a ≤ x ∧ x < a + unit then ptr a else s.heap.ptr a
        size := fun a => if a ≤ x ∧ x < a + unit then size a else s.heap.size a } }
    else .error .outside

/-- Before the first call; the heap will lie above `base`. -/
def init (brk : ℕ) (ptr size : ℕ → ℕ) : State := ⟨⟨0, ptr, size⟩, brk, [], [], 0⟩

end Xv6.Malloc
