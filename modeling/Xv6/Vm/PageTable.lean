import Xv6.Vm.Kalloc

/-! Page tables and user address spaces, `vm.c`. A page table is named by the address of its
root page, and a pointer to an entry by the page and the index in it. Sizes and addresses are
`uint64`; sums that can wrap are reduced modulo `2 ^ 64`. -/
namespace Xv6
open Bytes Program

/-- The entry at index `i` of the table page `pa`. -/
def entry (mem : ℕ → Buf) (pa i : ℕ) : Pte := BitVec.ofNat 64 (getLE (mem pa) (8 * i) 8)

def Machine.setEntry (s : Machine) (pa i : ℕ) (pte : Pte) : Machine :=
  s.setPage pa (setLE (s.mem pa) (8 * i) 8 pte.toNat)

def readPte (pa i : ℕ) : Kernel Pte := return entry (← get).mem pa i

def writePte (pa i : ℕ) (pte : Pte) : Kernel Unit := modify (·.setEntry pa i pte)

/-- The indices of a virtual page number in the three levels. -/
abbrev ix2 (vpn : ℕ) : ℕ := vpn / 2 ^ 18 % 512
abbrev ix1 (vpn : ℕ) : ℕ := vpn / 2 ^ 9 % 512
abbrev ix0 (vpn : ℕ) : ℕ := vpn % 512

/-- The entry that the hardware finds for a page number, 0 where a table is missing. -/
def leafAt (e : ℕ → ℕ → Pte) (r vpn : ℕ) : Pte :=
  if valid (e r (ix2 vpn)) then
    if valid (e (pte2pa (e r (ix2 vpn))) (ix1 vpn)) then
      e (pte2pa (e (pte2pa (e r (ix2 vpn))) (ix1 vpn))) (ix0 vpn)
    else 0#64
  else 0#64

/-- One turn of the loop of `walk`. -/
def walkLevel (alloc : Bool) (pagetable level va : ℕ) : Kernel (Option ℕ) := do
  let pte ← readPte pagetable (px level va)
  if pte &&& pteV ≠ 0#64 then return some (pte2pa pte)
  if !alloc then return none
  match ← kalloc with
  | none => return none
  | some pa =>
    memset pa 0
    writePte pagetable (px level va) (pa2pte pa ||| pteV)
    return some pa

def walk (pagetable va : ℕ) (alloc : Bool) : Kernel (Option (ℕ × ℕ)) := do
  if maxva ≤ va then throw .walk
  match ← walkLevel alloc pagetable 2 va with
  | none => return none
  | some mid =>
    match ← walkLevel alloc mid 1 va with
    | none => return none
    | some low => return some (low, px 0 va)

/-- `none` is the address 0 that the source returns for an unmapped address. -/
def walkaddr (pagetable va : ℕ) : Kernel (Option ℕ) := do
  if maxva ≤ va then return none
  match ← walk pagetable va false with
  | none => return none
  | some (pg, i) =>
    let pte ← readPte pg i
    if pte &&& pteV = 0#64 then return none
    if pte &&& pteU = 0#64 then return none
    return some (pte2pa pte)

/-- The loop of `mappages`. Each turn moves `a` by a page and `walk` panics at `maxva`, so that
one turn more than there are pages is never taken. -/
def mappagesLoop (pagetable last : ℕ) (perm : Pte) : ℕ → ℕ → ℕ → Kernel Bool
  | 0, _, _ => throw .walk
  | n + 1, a, pa => do
    match ← walk pagetable a true with
    | none => return false
    | some (pg, i) =>
      let pte ← readPte pg i
      if pte &&& pteV ≠ 0#64 then throw .mappagesRemap
      writePte pg i (pa2pte pa ||| perm ||| pteV)
      if a = last then return true
      mappagesLoop pagetable last perm n (a + pgsize) (pa + pgsize)

/-- `true` is the return value 0, `false` is -1. -/
def mappages (pagetable va size pa : ℕ) (perm : Pte) : Kernel Bool := do
  if size = 0 then throw .mappagesSize
  mappagesLoop pagetable (pgrounddown ((va + size - 1) % 2 ^ 64)) perm (maxva / pgsize + 1)
    (pgrounddown va) pa

def kvmmap (kpgtbl va pa sz : ℕ) (perm : Pte) : Kernel Unit := do
  if !(← mappages kpgtbl va sz pa perm) then throw .kvmmap

def uvmunmapLoop [Image] (pagetable : ℕ) (doFree : Bool) : ℕ → ℕ → Kernel Unit
  | 0, _ => return ()
  | n + 1, a => do
    match ← walk pagetable a false with
    | none => throw .uvmunmapWalk
    | some (pg, i) =>
      let pte ← readPte pg i
      if pte &&& pteV = 0#64 then throw .uvmunmapNotMapped
      if pteFlags pte = pteV then throw .uvmunmapNotALeaf
      if doFree then kfree (pte2pa pte)
      writePte pg i 0#64
      uvmunmapLoop pagetable doFree n (a + pgsize)

def uvmunmap [Image] (pagetable va npages : ℕ) (doFree : Bool) : Kernel Unit := do
  if va % pgsize ≠ 0 then throw .uvmunmapNotAligned
  uvmunmapLoop pagetable doFree (((va + npages * pgsize) % 2 ^ 64 - va) / pgsize) va

def uvmcreate : Kernel (Option ℕ) := do
  match ← kalloc with
  | none => return none
  | some pagetable =>
    memset pagetable 0
    return some pagetable

/-- Without memory the source goes on with the null pointer. -/
def uvminit (pagetable : ℕ) (src : List UInt8) : Kernel Unit := do
  if pgsize ≤ src.length then throw .inituvm
  match ← kalloc with
  | none => throw .kerneltrap
  | some mem =>
    memset mem 0
    let _ ← mappages pagetable 0 pgsize mem (pteW ||| pteR ||| pteX ||| pteU)
    modify fun s => s.setPage mem (write (s.mem mem) 0 src)

/-- A `uint64` count that passes through an `int`. -/
def throughInt (n : ℕ) : ℕ :=
  if n % 2 ^ 32 < 2 ^ 31 then n % 2 ^ 32 else n % 2 ^ 32 + (2 ^ 64 - 2 ^ 32)

def uvmdealloc [Image] (pagetable oldsz newsz : ℕ) : Kernel ℕ := do
  if oldsz ≤ newsz then return oldsz
  if pgroundup newsz < pgroundup oldsz then
    let npages := throughInt ((pgroundup oldsz - pgroundup newsz) / pgsize)
    uvmunmap pagetable (pgroundup newsz) npages true
  return newsz

/-- The loop of `uvmalloc`, which undoes its own work when memory runs out. -/
def uvmallocLoop [Image] (pagetable oldsz newsz : ℕ) : ℕ → ℕ → Kernel ℕ
  | 0, _ => return newsz
  | n + 1, a => do
    match ← kalloc with
    | none =>
      let _ ← uvmdealloc pagetable a oldsz
      return 0
    | some mem =>
      memset mem 0
      if ← mappages pagetable a pgsize mem (pteW ||| pteX ||| pteR ||| pteU) then
        uvmallocLoop pagetable oldsz newsz n (a + pgsize)
      else
        kfree mem
        let _ ← uvmdealloc pagetable a oldsz
        return 0

/-- Returns 0 when memory runs out. -/
def uvmalloc [Image] (pagetable oldsz newsz : ℕ) : Kernel ℕ := do
  if newsz < oldsz then return oldsz
  uvmallocLoop pagetable (pgroundup oldsz) newsz
    ((newsz - pgroundup oldsz + (pgsize - 1)) / pgsize) (pgroundup oldsz)

/-- The loop of `freewalk` over entries `512 - n` on, with the recursion on the level of the
table. -/
def freewalkLoop [Image] (freeChild : ℕ → Kernel Unit) (pagetable : ℕ) : ℕ → Kernel Unit
  | 0 => return ()
  | n + 1 => do
    let i := 512 - (n + 1)
    let pte ← readPte pagetable i
    if pte &&& pteV ≠ 0#64 ∧ pte &&& (pteR ||| pteW ||| pteX) = 0#64 then
      freeChild (pte2pa pte)
      writePte pagetable i 0#64
    else if pte &&& pteV ≠ 0#64 then throw .freewalkLeaf
    freewalkLoop freeChild pagetable n

/-- `level` bounds the recursion: a table of level 0 has no lower tables, and the source would
follow one only if it were told apart from a leaf. -/
def freewalk [Image] : ℕ → ℕ → Kernel Unit
  | 0, pagetable => do
    freewalkLoop (fun _ => throw .freewalkLeaf) pagetable 512
    kfree pagetable
  | level + 1, pagetable => do
    freewalkLoop (freewalk level) pagetable 512
    kfree pagetable

def uvmfree [Image] (pagetable sz : ℕ) : Kernel Unit := do
  if 0 < sz then uvmunmap pagetable 0 (pgroundup sz / pgsize) true
  freewalk 2 pagetable

/-- Flags of a page that becomes shared. -/
def shareFlags (fl : Pte) : Pte := (fl &&& ~~~pteW) ||| pteCow

/-- Flags of a page that becomes private. -/
def ownFlags (fl : Pte) : Pte := (fl ||| pteW) &&& ~~~pteCow

/-- Writable user pages become read-only in the old table; the flags for the new one. -/
def shareEntry (pg k : ℕ) (pte : Pte) : Kernel Pte := do
  if pteFlags pte &&& (pteW ||| pteU) = pteW ||| pteU then
    writePte pg k (pa2pte (pte2pa pte) ||| shareFlags (pteFlags pte))
    return shareFlags (pteFlags pte)
  else return pteFlags pte

/-- The loop of `uvmcopy`, `n` pages from `i` on. -/
def uvmcopyLoop [Image] (old new : ℕ) : ℕ → ℕ → Kernel Bool
  | 0, _ => return true
  | n + 1, i => do
    match ← walk old i false with
    | none => throw .uvmcopyPte
    | some (pg, k) =>
      let pte ← readPte pg k
      if pte &&& pteV = 0#64 then throw .uvmcopyPage
      let flags ← shareEntry pg k pte
      if ← mappages new i pgsize (pte2pa pte) flags then
        krefinc (pte2pa pte)
        uvmcopyLoop old new n (i + pgsize)
      else
        uvmunmap new 0 (i / pgsize) true
        return false

def uvmcopy [Image] (old new sz : ℕ) : Kernel Bool :=
  uvmcopyLoop old new ((sz + (pgsize - 1)) / pgsize) 0

def cowalloc [Image] (pagetable va : ℕ) : Kernel Bool := do
  if maxva ≤ va then return false
  match ← walk pagetable (pgrounddown va) false with
  | none => return false
  | some (pg, i) =>
    let pte ← readPte pg i
    if pte &&& (pteV ||| pteU ||| pteCow) ≠ pteV ||| pteU ||| pteCow then return false
    let pa := pte2pa pte
    let flags := ownFlags (pteFlags pte)
    if (← krefcount pa) = 1 then
      writePte pg i (pa2pte pa ||| flags)
      return true
    match ← kalloc with
    | none => return false
    | some mem =>
      modify fun s => s.setPage mem (s.mem pa)
      writePte pg i (pa2pte mem ||| flags)
      kfree pa
      return true

def uvmclear (pagetable va : ℕ) : Kernel Unit := do
  match ← walk pagetable va false with
  | none => throw .uvmclear
  | some (pg, i) => writePte pg i ((← readPte pg i) &&& ~~~pteU)

/-- The test of `copyout` for a page that is shared. -/
def isCow (pagetable va0 : ℕ) : Kernel Bool := do
  match ← walk pagetable va0 false with
  | none => return false
  | some (pg, i) => return (← readPte pg i) &&& pteCow ≠ 0#64

/-- The part of `copyout` for the page at `va0` before the bytes are moved: the physical page
to write to. -/
def copyoutPage [Image] (pagetable va0 : ℕ) : Kernel (Option ℕ) := do
  if maxva ≤ va0 then return none
  if ← isCow pagetable va0 then
    if ← cowalloc pagetable va0 then walkaddr pagetable va0 else return none
  else walkaddr pagetable va0

/-- The loop of `copyout`: each turn moves a byte at least, so that `len` turns are enough. -/
def copyoutLoop [Image] (pagetable : ℕ) : ℕ → ℕ → List UInt8 → Kernel Bool
  | 0, _, _ => return true
  | fuel + 1, dstva, src => do
    if src = [] then return true
    let va0 := pgrounddown dstva
    match ← copyoutPage pagetable va0 with
    | none => return false
    | some pa0 =>
      let n := min (pgsize - (dstva - va0)) src.length
      modify fun s => s.setPage pa0 (write (s.mem pa0) (dstva - va0) (src.take n))
      copyoutLoop pagetable fuel (va0 + pgsize) (src.drop n)

def copyout [Image] (pagetable dstva : ℕ) (src : List UInt8) : Kernel Bool :=
  copyoutLoop pagetable src.length dstva src

/-- The loop of `copyin`, with the bytes copied so far. -/
def copyinLoop (pagetable : ℕ) : ℕ → ℕ → ℕ → List UInt8 → Kernel (Option (List UInt8))
  | 0, _, _, acc => return some acc
  | fuel + 1, srcva, len, acc => do
    if len = 0 then return some acc
    let va0 := pgrounddown srcva
    match ← walkaddr pagetable va0 with
    | none => return none
    | some pa0 =>
      let n := min (pgsize - (srcva - va0)) len
      let bytes := read ((← get).mem pa0) (srcva - va0) n
      copyinLoop pagetable fuel (va0 + pgsize) (len - n) (acc ++ bytes)

def copyin (pagetable srcva len : ℕ) : Kernel (Option (List UInt8)) :=
  copyinLoop pagetable len srcva len []

/-- The loop of `copyinstr`: the bytes stored so far and whether the string has ended. -/
def copyinstrLoop (pagetable : ℕ) : ℕ → ℕ → ℕ → List UInt8 → Kernel (List UInt8 × Bool)
  | 0, _, _, acc => return (acc, false)
  | fuel + 1, srcva, max, acc => do
    if max = 0 then return (acc, false)
    let va0 := pgrounddown srcva
    match ← walkaddr pagetable va0 with
    | none => return (acc, false)
    | some pa0 =>
      let n := min (pgsize - (srcva - va0)) max
      let str := (read ((← get).mem pa0) (srcva - va0) n).takeWhile (· ≠ 0)
      if str.length < n then return (acc ++ str ++ [0], true)
      copyinstrLoop pagetable fuel (va0 + pgsize) (max - n) (acc ++ str)

def copyinstr (pagetable srcva max : ℕ) : Kernel (List UInt8 × Bool) :=
  copyinstrLoop pagetable max srcva max []

/-- The physical page behind a user address when the entry has the right `access`. -/
def translate (mem : ℕ → Buf) (pagetable va : ℕ) (access : Pte → Bool) : Option ℕ :=
  let pte := leafAt (entry mem) pagetable (va / pgsize)
  if va < maxva ∧ valid pte = true ∧ user pte = true ∧ access pte = true then some (pte2pa pte)
  else none

/-- A load by the user program; `none` is a page fault. -/
def loadByte (pagetable va : ℕ) : Kernel (Option UInt8) := do
  let s ← get
  return (translate s.mem pagetable va readable).map fun pa => s.mem pa (va % pgsize)

/-- A store by the user program; `false` is a page fault. -/
def storeByte (pagetable va : ℕ) (b : UInt8) : Kernel Bool := do
  let s ← get
  match translate s.mem pagetable va writable with
  | none => return false
  | some pa =>
    set (s.setPage pa (write (s.mem pa) (va % pgsize) [b]))
    return true

end Xv6
