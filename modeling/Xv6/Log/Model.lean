import Xv6.Lib.Bytes
import Xv6.Lib.Runs
import Xv6.Param

/-!
The redo log of `kernel/log.c` above an abstract buffer cache. System calls interleave
at the granularity of the log's critical sections and of single disk writes; `commit`
and `recover_from_log` are cut into one step for each block they write, so that a crash
may fall between any two writes.
-/
namespace Xv6.Log
open Bytes

/-- A disk block is the bytes of `b->data`. -/
abbrev Block := Buf

/-- The log area given by the superblock: a header block followed by `size - 1` slots. -/
structure Layout where
  start : ℕ
  size : ℕ
  pos : 0 < size

namespace Layout
variable (L : Layout)

def InLog (b : ℕ) : Prop := L.start ≤ b ∧ b < L.start + L.size

instance (b : ℕ) : Decidable (L.InLog b) := inferInstanceAs (Decidable (_ ∧ _))

/-- The on-disk block of the log that holds entry `tail`. -/
def slot (tail : ℕ) : ℕ := L.start + tail + 1

/-- The log area of an image made by `mkfs`: `logstart` is 2 and `nlog` is `LOGSIZE`. -/
def mkfs : Layout := ⟨2, logsize, by decide⟩

/-- A block that callers of `log_write` may pass: a `uint` outside the log area. -/
abbrev Home := {b : ℕ // b < 2 ^ 32 ∧ ¬ L.InLog b}

end Layout

/-- The entries of the `struct logheader` stored in a header block. -/
def decodeHead (blk : Block) : List ℕ :=
  (List.range (getLE blk 0 4)).map fun i => getLE blk (4 + 4 * i) 4

/-- Store `hb->block[i ..]`, entry after entry. -/
def encodeEntries (blk : Block) : ℕ → List ℕ → Block
  | _, [] => blk
  | i, b :: bs => encodeEntries (setLE blk (4 + 4 * i) 4 b) (i + 1) bs

/-- `write_head` stores the count and the entries; the rest of the block keeps its bytes. -/
def encodeHead (blk : Block) (lh : List ℕ) : Block :=
  encodeEntries (setLE blk 0 4 lh.length) 0 lh

theorem getLE_encodeEntries_before (blk : Block) (i off w : ℕ) (bs : List ℕ)
    (h : off + w ≤ 4 + 4 * i) : getLE (encodeEntries blk i bs) off w = getLE blk off w := by
  induction bs generalizing blk i with
  | nil => rfl
  | cons b bs ih =>
    simp only [encodeEntries]
    rw [ih _ _ (by omega), getLE_setLE_disjoint _ _ (by omega)]

theorem getLE_encodeEntries (blk : Block) (i j : ℕ) (bs : List ℕ) (hj : j < bs.length) :
    getLE (encodeEntries blk i bs) (4 + 4 * (i + j)) 4 = bs[j] % 256 ^ 4 := by
  induction bs generalizing blk i j with
  | nil => simp at hj
  | cons b bs ih =>
    simp only [encodeEntries]
    cases j with
    | zero =>
      rw [getLE_encodeEntries_before _ _ _ _ _ (by omega)]
      simp
    | succ j =>
      have h := ih (setLE blk (4 + 4 * i) 4 b) (i + 1) j (by simpa using hj)
      rw [show i + 1 + j = i + (j + 1) by omega] at h
      simpa using h

/-- The header that `write_head` stores is the one `read_head` finds. -/
theorem decodeHead_encodeHead (blk : Block) (lh : List ℕ) (hlen : lh.length < 2 ^ 32)
    (hlt : ∀ b ∈ lh, b < 2 ^ 32) : decodeHead (encodeHead blk lh) = lh := by
  have hn : getLE (encodeHead blk lh) 0 4 = lh.length := by
    unfold encodeHead
    rw [getLE_encodeEntries_before _ _ _ _ _ (by omega), getLE_setLE_self]
    exact Nat.mod_eq_of_lt hlen
  apply List.ext_getElem
  · simp [decodeHead, hn]
  · intro i h₁ h₂
    have he := getLE_encodeEntries (setLE blk 0 4 lh.length) 0 i lh h₂
    have hb : lh[i] < 256 ^ 4 := (hlt _ (List.getElem_mem h₂)).trans_eq (by norm_num)
    rw [Nat.mod_eq_of_lt hb, Nat.zero_add] at he
    simp only [decodeHead, List.getElem_map, List.getElem_range]
    exact he

@[simp] theorem decodeHead_encodeHead_nil (blk : Block) : decodeHead (encodeHead blk []) = [] :=
  decodeHead_encodeHead blk [] (by simp) (by simp)

/-- Where the thread that runs `commit` or `recover_from_log` stands. -/
inductive Phase where
  | running
  | writeLog (tail : ℕ)
  | writeHead
  | install (tail : ℕ)
  | eraseHead
  | finish
  | readHead
  | recover (tail : ℕ)
  | recoverErase
  deriving DecidableEq, Repr

/-- Memory and disk. `lh` is `log.lh.block[0 .. log.lh.n)`, `pin b` counts the `bpin`s of
the buffer of `b`, and `active` lists the operations between `begin_op` and `end_op`. -/
structure State where
  disk : ℕ → Block
  cache : ℕ → Option Block
  pin : ℕ → ℕ
  outstanding : ℕ
  committing : Bool
  lh : List ℕ
  phase : Phase
  active : List ℕ
  nextOp : ℕ

/-- What a run does next. `io` is one more step of the committing or recovering thread;
`bread` and `evict` are buffer-cache traffic of any process. -/
inductive Event (L : Layout) where
  | beginOp
  | logWrite (op : ℕ) (b : L.Home) (data : Block)
  | endOp (op : ℕ)
  | bread (b : ℕ)
  | evict (b : ℕ)
  | io
  | crash

/-- `fsinit` has not returned yet, so no process can start an operation. -/
def State.recovering (s : State) : Bool :=
  match s.phase with
  | .readHead | .recover _ | .recoverErase => true
  | _ => false

/-- The contents `bread` returns: the cached copy, or the disk block. -/
def State.buf (s : State) (b : ℕ) : Block := (s.cache b).getD (s.disk b)

/-- `bwrite` of a buffer holding `data`. -/
def State.bwrite (s : State) (b : ℕ) (data : Block) : State :=
  { s with
    disk := Function.update s.disk b data
    cache := Function.update s.cache b (some data) }

variable {L : Layout}

/-- `begin_op`: sleep while a commit runs or while the reservation might overflow the log. -/
def beginOp (s : State) : Except Stop State :=
  if s.committing then .error .blocked
  else if s.lh.length + (s.outstanding + 1) * maxopblocks > logsize then .error .blocked
  else .ok { s with
    outstanding := s.outstanding + 1
    active := s.nextOp :: s.active
    nextOp := s.nextOp + 1 }

/-- `log_write` of a buffer that the caller has just filled with `data`. -/
def logWrite (s : State) (op : ℕ) (b : L.Home) (data : Block) : Except Stop State :=
  if op ∉ s.active then .error .blocked
  else if s.lh.length ≥ logsize ∨ s.lh.length + 1 ≥ L.size then .error (.panic .logTooBig)
  else if s.outstanding < 1 then .error (.panic .logOutsideTrans)
  else
    let s := { s with cache := Function.update s.cache b.1 (some data) }
    if b.1 ∈ s.lh then .ok s
    else .ok { s with
      lh := s.lh ++ [b.1]
      pin := Function.update s.pin b.1 (s.pin b.1 + 1) }

/-- `end_op`: the last operation out starts the commit. -/
def endOp (s : State) (op : ℕ) : Except Stop State :=
  if op ∉ s.active then .error .blocked
  else if s.committing then .error (.panic .logCommitting)
  else
    let s := { s with outstanding := s.outstanding - 1, active := s.active.erase op }
    if s.outstanding = 0 then
      .ok { s with
        committing := true
        phase := if s.lh = [] then .finish else .writeLog 0 }
    else .ok s

/-- The copy of one log slot to its home block in `install_trans`. -/
def installOne (L : Layout) (s : State) (tail : ℕ) (recovering : Bool) : State :=
  let b := s.lh.getD tail 0
  let s := s.bwrite b (s.buf (L.slot tail))
  if recovering then s else { s with pin := Function.update s.pin b (s.pin b - 1) }

/-- One step of `commit` or of `recover_from_log`: at most one disk write. -/
def io (L : Layout) (s : State) : Except Stop State :=
  match s.phase with
  | .running => .error .blocked
  | .writeLog tail =>
    if tail < s.lh.length then
      .ok { s.bwrite (L.slot tail) (s.buf (s.lh.getD tail 0)) with phase := .writeLog (tail + 1) }
    else .ok { s with phase := .writeHead }
  | .writeHead =>
    .ok { s.bwrite L.start (encodeHead (s.buf L.start) s.lh) with phase := .install 0 }
  | .install tail =>
    if tail < s.lh.length then
      .ok { installOne L s tail false with phase := .install (tail + 1) }
    else .ok { s with lh := [], phase := .eraseHead }
  | .eraseHead =>
    .ok { s.bwrite L.start (encodeHead (s.buf L.start) s.lh) with phase := .finish }
  | .finish => .ok { s with committing := false, phase := .running }
  | .readHead => .ok { s with lh := decodeHead (s.buf L.start), phase := .recover 0 }
  | .recover tail =>
    if tail < s.lh.length then
      .ok { installOne L s tail true with phase := .recover (tail + 1) }
    else .ok { s with lh := [], phase := .recoverErase }
  | .recoverErase =>
    .ok { s.bwrite L.start (encodeHead (s.buf L.start) s.lh) with phase := .running }

/-- Power is lost: only the disk survives, and the next boot enters `recover_from_log`. -/
def crash (s : State) : State where
  disk := s.disk
  cache := fun _ => none
  pin := fun _ => 0
  outstanding := 0
  committing := false
  lh := []
  phase := .readHead
  active := []
  nextOp := s.nextOp

def step (L : Layout) (s : State) : Event L → Except Stop State
  | .beginOp => if s.recovering then .error .blocked else beginOp s
  | .logWrite op b data => logWrite s op b data
  | .endOp op => endOp s op
  | .bread b => .ok { s with cache := Function.update s.cache b (some (s.buf b)) }
  | .evict b =>
    if s.pin b = 0 then .ok { s with cache := Function.update s.cache b none }
    else .error .blocked
  | .io => io L s
  | .crash => .ok (crash s)

/-- Booting on a disk image: nothing is cached and recovery is about to run. -/
def boot (disk : ℕ → Block) : State where
  disk := disk
  cache := fun _ => none
  pin := fun _ => 0
  outstanding := 0
  committing := false
  lh := []
  phase := .readHead
  active := []
  nextOp := 0

variable {s t : State}

theorem beginOp_ok (h : beginOp s = .ok t) :
    s.committing = false ∧ s.lh.length + (s.outstanding + 1) * maxopblocks ≤ logsize ∧
      t = { s with
        outstanding := s.outstanding + 1
        active := s.nextOp :: s.active
        nextOp := s.nextOp + 1 } := by
  unfold beginOp at h
  split at h
  · contradiction
  next hc =>
    split at h
    · contradiction
    next hroom => exact ⟨by simpa using hc, by omega, (Except.ok.inj h).symm⟩

theorem logWrite_ok {op : ℕ} {b : L.Home} {x : Block} (h : logWrite s op b x = .ok t) :
    op ∈ s.active ∧ s.lh.length < logsize ∧ s.lh.length + 1 < L.size ∧
      (b.1 ∈ s.lh ∧ t = { s with cache := Function.update s.cache b.1 (some x) } ∨
        b.1 ∉ s.lh ∧ t = { s with
          cache := Function.update s.cache b.1 (some x)
          lh := s.lh ++ [b.1]
          pin := Function.update s.pin b.1 (s.pin b.1 + 1) }) := by
  unfold logWrite at h
  split at h
  · contradiction
  next hop =>
  split at h
  · contradiction
  next hroom =>
  split at h
  · contradiction
  refine ⟨not_not.mp hop, by omega, by omega, ?_⟩
  dsimp only at h
  split at h
  next hmem => exact .inl ⟨hmem, (Except.ok.inj h).symm⟩
  next hmem => exact .inr ⟨hmem, (Except.ok.inj h).symm⟩

theorem endOp_ok {op : ℕ} (h : endOp s op = .ok t) :
    op ∈ s.active ∧ s.committing = false ∧
      (s.outstanding - 1 = 0 ∧ t = { s with
          outstanding := s.outstanding - 1
          active := s.active.erase op
          committing := true
          phase := if s.lh = [] then .finish else .writeLog 0 } ∨
        s.outstanding - 1 ≠ 0 ∧ t = { s with
          outstanding := s.outstanding - 1
          active := s.active.erase op }) := by
  unfold endOp at h
  split at h
  · contradiction
  next hop =>
  split at h
  · contradiction
  next hc =>
  refine ⟨not_not.mp hop, by simpa using hc, ?_⟩
  dsimp only at h
  split at h
  next h0 => exact .inl ⟨h0, (Except.ok.inj h).symm⟩
  next h0 => exact .inr ⟨h0, (Except.ok.inj h).symm⟩

end Xv6.Log
