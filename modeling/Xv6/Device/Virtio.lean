import Mathlib.Data.List.Basic
import Xv6.Lib.Monitor
import Xv6.Lib.Ring

/-!
The virtio disk driver, virtio_disk.c. Any number of processes call `virtio_disk_rw` and any
number of interrupts run `virtio_disk_intr`, all under `vdisk_lock`. The device takes chains of
descriptors from the avail ring and posts them, in any order, to the used ring, without a lock.
-/
namespace Xv6.Virtio
open Monitor Ring

/-- `NUM`, the number of descriptors. -/
abbrev num : ℕ := 8

def descNext : ℕ := 1
def descWrite : ℕ := 2

/-- The places the driver points the device at. -/
inductive Addr where
  | null
  | op (i : ℕ)
  | data (b : ℕ)
  | status (i : ℕ)
  deriving DecidableEq, Repr

/-- `struct virtq_desc` -/
structure Desc where
  addr : Addr
  len : ℕ
  flags : ℕ
  next : ℕ
  deriving DecidableEq, Repr

/-- `struct virtio_blk_req` -/
structure BlkReq where
  type : ℕ
  reserved : ℕ
  sector : ℕ
  deriving DecidableEq, Repr

/-- A ring of descriptor numbers with the index its writer advances. -/
structure Queue where
  ring : ℕ → ℕ
  idx : BitVec 16

structure Info where
  b : Option ℕ
  status : UInt8
  deriving DecidableEq, Repr

/-- The driver's `disk`, with what stands beside it: `b->disk` and the holder of `b->lock` for
each buffer, and the device's place in the avail ring and the chains it works on. -/
structure Disk where
  desc : ℕ → Desc
  avail : Queue
  used : Queue
  free : ℕ → Bool
  usedIdx : BitVec 16
  info : ℕ → Info
  ops : ℕ → BlkReq
  busy : ℕ → Bool
  holder : ℕ → Option ℕ
  seen : BitVec 16
  taken : List ℕ

inductive Fault where
  | freeDesc1
  | freeDesc2
  | status
  | nullBuf
  /-- `free_chain` goes around in a circle -/
  | endless
  deriving DecidableEq, Repr

def Fault.text : Fault → Option String
  | .freeDesc1 => some "free_desc 1"
  | .freeDesc2 => some "free_desc 2"
  | .status => some "virtio_disk_intr status"
  | .nullBuf | .endless => none

inductive Chan where
  /-- `&disk.free[0]` -/
  | free
  | buf (b : ℕ)
  deriving DecidableEq, Repr

/-- After `virtio_disk_init`; what the rings and the buffers hold does not matter. -/
def Disk.init (availRing usedRing : ℕ → ℕ) (ops : ℕ → BlkReq) (busy : ℕ → Bool) : Disk where
  desc _ := ⟨.null, 0, 0, 0⟩
  avail := ⟨availRing, 0⟩
  used := ⟨usedRing, 0⟩
  free _ := true
  usedIdx := 0
  info _ := ⟨none, 0⟩
  ops := ops
  busy := busy
  holder _ := none
  seen := 0
  taken := []

def Disk.allocDesc (d : Disk) : Option (ℕ × Disk) :=
  ((List.range num).find? d.free).map fun i =>
    (i, { d with free := Function.update d.free i false })

/-- Its `wakeup` is in the `wakes` of the turn. -/
def Disk.freeDesc (d : Disk) (i : ℕ) : Except Fault Disk :=
  if num ≤ i then .error .freeDesc1
  else if d.free i then .error .freeDesc2
  else .ok { d with
    desc := Function.update d.desc i ⟨.null, 0, 0, 0⟩, free := Function.update d.free i true }

def Disk.freeChain (d : Disk) : ℕ → ℕ → Except Fault Disk
  | 0, _ => .error .endless
  | fuel + 1, i => do
    let flag := (d.desc i).flags
    let nxt := (d.desc i).next
    let d ← d.freeDesc i
    if flag &&& descNext ≠ 0 then d.freeChain fuel nxt else .ok d

/-- The three descriptors, or none after giving back those already taken. -/
def Disk.alloc3Desc (d : Disk) : Except Fault (Disk × Option (ℕ × ℕ × ℕ) × List Chan) :=
  match d.allocDesc with
  | none => .ok (d, none, [])
  | some (i₀, d) =>
    match d.allocDesc with
    | none => do
      let d ← d.freeDesc i₀
      .ok (d, none, [.free])
    | some (i₁, d) =>
      match d.allocDesc with
      | none => do
        let d ← d.freeDesc i₀
        let d ← d.freeDesc i₁
        .ok (d, none, [.free, .free])
      | some (i₂, d) => .ok (d, some (i₀, i₁, i₂), [])

/-- A caller's arguments: the buffer, its `blockno`, and `write`. -/
structure Request where
  b : ℕ
  blockno : ℕ
  write : Bool
  deriving DecidableEq, Repr

/-- Fill in the three descriptors, the record for the interrupt and the avail ring's entry. -/
def Disk.format (d : Disk) (q : Request) (i₀ i₁ i₂ : ℕ) : Disk :=
  { d with
    ops := Function.update d.ops i₀ ⟨if q.write then 1 else 0, 0, q.blockno * 2 % 2 ^ 32⟩
    desc := Function.update (Function.update (Function.update d.desc
      i₀ ⟨.op i₀, 16, descNext, i₁⟩)
      i₁ ⟨.data q.b, 1024, (if q.write then 0 else descWrite) ||| descNext, i₂⟩)
      i₂ ⟨.status i₀, 1, descWrite, 0⟩
    busy := Function.update d.busy q.b true
    info := Function.update d.info i₀ ⟨some q.b, 0xff⟩
    avail := { d.avail with ring := Function.update d.avail.ring (cell num d.avail.idx) i₀ } }

/-- How far `virtio_disk_rw` is; `i` is `idx[0]`. -/
inductive Phase where
  | alloc
  /-- the entry is in the avail ring, the index not yet advanced -/
  | publish (i : ℕ)
  | wait (i : ℕ)
  deriving DecidableEq, Repr

inductive Loc where
  | rw (q : Request) (ph : Phase)
  | intr
  deriving DecidableEq, Repr

/-- Its last turn also stands for the caller giving up `b->lock`. -/
def Disk.virtioDiskRw (d : Disk) (q : Request) : Phase → Except Fault (Turn Disk Loc Chan)
  | .alloc => do
    let (d, idx, ws) ← d.alloc3Desc
    match idx with
    | none => .ok ⟨d, .rw q .alloc, ws, .sleep .free⟩
    | some (i₀, i₁, i₂) => .ok ⟨d.format q i₀ i₁ i₂, .rw q (.publish i₀), ws, .stay⟩
  | .publish i =>
    .ok ⟨{ d with avail := { d.avail with idx := d.avail.idx + 1 } }, .rw q (.wait i), [], .stay⟩
  | .wait i =>
    if d.busy q.b then .ok ⟨d, .rw q (.wait i), [], .sleep (.buf q.b)⟩
    else do
      let d := { d with info := Function.update d.info i { d.info i with b := none } }
      let d ← d.freeChain num i
      .ok ⟨{ d with holder := Function.update d.holder q.b none }, .rw q (.wait i), [.free],
        .leave 0⟩

/-- One turn of the loop. -/
def Disk.virtioDiskIntr (d : Disk) : Except Fault (Turn Disk Loc Chan) :=
  if d.usedIdx = d.used.idx then .ok ⟨d, .intr, [], .leave 0⟩
  else
    let id := d.used.ring (cell num d.usedIdx)
    if (d.info id).status ≠ 0 then .error .status
    else
      match (d.info id).b with
      | none => .error .nullBuf
      | some b =>
        .ok ⟨{ d with busy := Function.update d.busy b false, usedIdx := d.usedIdx + 1 }, .intr,
          [.buf b], .stay⟩

inductive Device where
  /-- take the next chain from the avail ring -/
  | take
  /-- finish a chain: clear its status byte and post its head -/
  | complete (h : ℕ)

/-- The descriptors of the chain that starts at `h`, as the device follows it. -/
def Disk.chain (d : Disk) (h : ℕ) : List ℕ :=
  [h, (d.desc h).next, (d.desc (d.desc h).next).next]

def Disk.device (d : Disk) : Device → Except (Stop Fault) (Disk × List Chan)
  | .take =>
    if d.seen = d.avail.idx then .error .blocked
    else .ok ({ d with
      seen := d.seen + 1, taken := d.taken ++ [d.avail.ring (cell num d.seen)] }, [])
  | .complete h =>
    if h ∈ d.taken then
      let info := match (d.desc (d.desc (d.desc h).next).next).addr with
        | .status i => Function.update d.info i { d.info i with status := 0 }
        | _ => d.info
      .ok ({ d with
        info := info
        used := ⟨Function.update d.used.ring (cell num d.used.idx) h, d.used.idx + 1⟩
        taken := d.taken.erase h }, [])
    else .error .blocked

/-- What a process asks for: a transfer, which it may only start while it holds the buffer's
lock, or the handling of an interrupt. -/
inductive Ask where
  | rw (q : Request)
  | intr

def code : Code Disk Loc Chan Ask Device Fault where
  start d c
    | .rw q =>
      if d.holder q.b = none then
        .ok ({ d with holder := Function.update d.holder q.b (some c) }, .rw q .alloc)
      else .error .blocked
    | .intr => .ok (d, .intr)
  turn d _ l _ := match l with
    | .rw q ph => d.virtioDiskRw q ph
    | .intr => d.virtioDiskIntr
  outside := Disk.device
  locks _ := false

/-- A request as its caller published it. -/
structure Entry where
  head : ℕ
  buf : ℕ
  call : ℕ
  deriving DecidableEq, Repr

/-- What went through the rings, oldest first: the requests the callers published, the heads
the device took, the requests it completed, and what the interrupt handler read back with the
buffer it then found. -/
structure History where
  published : List Entry
  fetched : List ℕ
  completed : List Entry
  handled : List (ℕ × Option ℕ)

/-- The latest request published under a head. -/
def History.request (h : History) (head : ℕ) : Option Entry :=
  h.published.reverse.find? fun e => e.head = head

/-- The completed requests of a call. -/
def History.of (h : History) (c : ℕ) : List Entry := h.completed.filter fun e => e.call = c

def History.note (h : History) (c : ℕ) (before _after : Disk × Loc) : History :=
  match before with
  | (_, .rw q (.publish i)) => { h with published := h.published ++ [⟨i, q.b, c⟩] }
  | (_, .rw _ _) => h
  | (d, .intr) =>
    if d.usedIdx = d.used.idx then h
    else
      let id := d.used.ring (cell num d.usedIdx)
      { h with handled := h.handled ++ [(id, (d.info id).b)] }

def History.noteDevice (h : History) (e : Device) (before _after : Disk) : History :=
  match e with
  | .take => { h with fetched := h.fetched ++ [before.avail.ring (cell num before.seen)] }
  | .complete i => { h with completed := h.completed ++ (h.request i).toList }

abbrev observed : Code (Disk × History) Loc Chan Ask Device Fault :=
  code.observe History.note History.noteDevice

abbrev DiskState := State (Disk × History) Loc Chan

def init (availRing usedRing : ℕ → ℕ) (ops : ℕ → BlkReq) (busy : ℕ → Bool) : DiskState :=
  Monitor.init (Disk.init availRing usedRing ops busy, ⟨[], [], [], []⟩)

end Xv6.Virtio
